import HardwareMap.Bytes

/-!
# Text as UTF-8

Names and labels are stored as UTF-8 followed by a zero byte.  `encode` and `decode?` carry text to
bytes and back (`decode?_encode`, `encode_of_decode?`); for bytes that are no text, `fault` tells
how far they are well formed and what stands there.
-/

namespace HardwareMap.Utf8

def encode (text : String) : Bytes := text.toByteArray.data.toList

def decode? (bytes : Bytes) : Option String := String.fromUTF8? ⟨bytes.toArray⟩

theorem decode?_encode (text : String) : decode? (encode text) = some text := by
  simp [decode?, encode, String.fromUTF8?, String.fromUTF8, text.isValidUTF8]

theorem encode_of_decode? {bytes : Bytes} {text : String} (h : decode? bytes = some text) :
    encode text = bytes := by
  simp only [decode?, String.fromUTF8?] at h
  split at h
  · cases h
    simp [encode, String.fromUTF8]
  · contradiction

/-- Whether a text contains the zero byte that would end it when stored. -/
def hasNul (text : String) : Bool := (encode text).contains 0

theorem hasNul_eq_false_iff {text : String} : hasNul text = false ↔ 0 ∉ encode text := by
  rw [hasNul, List.contains_eq_mem, decide_eq_false_iff_not]

/-- Bytes of a text with the zero byte that ends it. -/
def storedSize (text : String) : Nat := (encode text).length + 1

/-- Where a byte string stops being UTF-8. -/
structure Fault where
  /-- Bytes before the fault. -/
  index : Nat
  /-- Length of the ill-formed sequence there; none if the bytes end inside a sequence. -/
  length : Option Nat
deriving DecidableEq

def Fault.message (fault : Fault) : String :=
  match fault.length with
  | some length => s!"invalid utf-8 sequence of {length} bytes from index {fault.index}"
  | none => s!"incomplete utf-8 byte sequence from index {fault.index}"

/-- The ranges that the bytes after a lead byte have to lie in; none for a byte that leads no
sequence.  The second byte is restricted so that overlong forms, surrogates and code points past
the last one are excluded. -/
def continuations (lead : UInt8) : Option (List (UInt8 × UInt8)) :=
  let any : UInt8 × UInt8 := (0x80, 0xBF)
  if lead < 0x80 then some []
  else if lead < 0xC2 then none
  else if lead < 0xE0 then some [any]
  else if lead = 0xE0 then some [(0xA0, 0xBF), any]
  else if lead = 0xED then some [(0x80, 0x9F), any]
  else if lead < 0xF0 then some [any, any]
  else if lead = 0xF0 then some [(0x90, 0xBF), any, any]
  else if lead < 0xF4 then some [any, any, any]
  else if lead = 0xF4 then some [(0x80, 0x8F), any, any]
  else none

/-- How the bytes after a lead byte meet the ranges required of them. -/
inductive Follow where
  /-- All ranges are met, by as many bytes. -/
  | complete
  /-- The bytes end first. -/
  | ended
  /-- After this many good bytes one is out of its range. -/
  | broken (good : Nat)

/-- Matches the bytes after a lead byte against their ranges. -/
def follow : List (UInt8 × UInt8) → Bytes → Nat → Follow
  | [], _, _ => .complete
  | _ :: _, [], _ => .ended
  | (low, high) :: ranges, byte :: rest, good =>
    if low ≤ byte && byte ≤ high then follow ranges rest (good + 1) else .broken good

/-- Scans sequence by sequence; `skip` bytes still belong to the sequence before. -/
def scan : (skip index : Nat) → Bytes → Option Fault
  | _, _, [] => none
  | skip + 1, index, _ :: rest => scan skip (index + 1) rest
  | 0, index, lead :: rest =>
    match continuations lead with
    | none => some ⟨index, some 1⟩
    | some ranges =>
      match follow ranges rest 0 with
      | .complete => scan ranges.length (index + 1) rest
      | .ended => some ⟨index, none⟩
      | .broken good => some ⟨index, some (good + 1)⟩

/-- The first fault of a byte string that is not UTF-8. -/
def fault (bytes : Bytes) : Fault := (scan 0 0 bytes).getD ⟨bytes.length, none⟩

end HardwareMap.Utf8
