import HardwareMap.Region.Config
import HardwareMap.Region.Reader

/-!
# Writing a region

A `Window` is the part of a region file after its header, with a cursor over it.  Writing past the
end and writing a window that was opened for reading fail without effect.  Text is written in two
steps, its bytes and then the zero byte, and of these the second can fail alone.
-/

namespace HardwareMap

/-- The bytes of a mapped region with a cursor over them. -/
structure Window where
  access : Access
  bytes : Bytes
  cursor : Nat := 0
deriving DecidableEq

namespace Window

def size (w : Window) : Nat := w.bytes.length

def remaining (w : Window) : Nat := w.size - w.cursor

end Window

abbrev Writer := EStateM Error Window

namespace Writer

def reading {α : Type} (reader : Reader α) : Writer α := fun w =>
  match reader w.bytes w.cursor with
  | .ok a cursor => .ok a { w with cursor }
  | .error e cursor => .error e { w with cursor }

def position : Writer Nat := fun w => .ok w.cursor w

/-- Writes bytes at the cursor and passes over them; answers with the offset where they start. -/
def bytes (data : Bytes) : Writer Nat := fun w =>
  if w.remaining < data.length then .error (.insufficientSpace data.length w.remaining) w
  else if w.access = .read then .error (.misuse .readOnly) w
  else
    .ok w.cursor
      { w with bytes := w.bytes.splice w.cursor data, cursor := w.cursor + data.length }

/-- Writes zero bytes at the cursor, to be overwritten later. -/
def reserve (len : Nat) : Writer Nat := fun w =>
  if w.remaining < len then .error (.insufficientSpace len w.remaining) w
  else bytes (Bytes.zeros len) w

/-- Overwrites bytes at an offset.  The cursor stays. -/
def patch (offset : Nat) (data : Bytes) : Writer Unit := fun w =>
  if w.size < offset + data.length then .error (.insufficientSpace data.length w.size) w
  else if w.access = .read then .error (.misuse .readOnly) w
  else .ok () { w with bytes := w.bytes.splice offset data }

def word {α : Type} [Word α] (a : α) : Writer Nat := bytes (Word.toBytes a)

def patchWord {α : Type} [Word α] (offset : Nat) (a : α) : Writer Unit :=
  patch offset (Word.toBytes a)

/-- Writes text and a zero byte after it.  Text with a zero byte in it is refused. -/
def text (t : String) : Writer Nat :=
  if Utf8.hasNul t then throw (.misuse (.interiorNul t))
  else do
    let start ← bytes (Utf8.encode t)
    discard (bytes [0])
    return start

def count (n : Nat) : Writer Nat := word (UInt64.ofNat n)

/-- Overwrites the 64-bit word at an offset with a number. -/
def patchCount (offset n : Nat) : Writer Unit := patchWord offset (UInt64.ofNat n)

end Writer

end HardwareMap
