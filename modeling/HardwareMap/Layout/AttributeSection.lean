import HardwareMap.Attribute.Registry
import HardwareMap.Region.Page
import HardwareMap.Region.Window

/-!
# Attribute sections

The attributes of an owner are stored as a count and then, in ascending order of their names, one
record each: the terminated name, the length of the payload and the payload.  Attributes that no
rule accepts are left out, and whoever writes the section is told their names.
-/

namespace HardwareMap

/-- What an export writes to: a window, and the calls made so far on the encoders of its caller. -/
structure Pass where
  window : Window
  calls : CallLog := ∅

abbrev Packer := EStateM Error Pass

def Packer.writing {α : Type} (writer : Writer α) : Packer α := fun pass =>
  match writer pass.window with
  | .ok a window => .ok a { pass with window }
  | .error e window => .error e { pass with window }

/-- The attributes of an owner after packing. -/
structure PackedAttributes where
  /-- Names and payloads of the attributes that have one. -/
  packed : List (String × Bytes) := []
  /-- The names of the others. -/
  dropped : List String := []
deriving DecidableEq

namespace Registry

def packAll (r : Registry) : List (String × Value) → CallLog → PackedAttributes × CallLog
  | [], calls => ({}, calls)
  | (name, value) :: rest, calls =>
    let (payload, calls) := r.pack name value calls
    let (others, calls) := r.packAll rest calls
    match payload with
    | some payload => ({ others with packed := (name, payload) :: others.packed }, calls)
    | none => ({ others with dropped := name :: others.dropped }, calls)

/-- Bytes of the records of attributes, counting the calls made. -/
def recordSizes (r : Registry) : List (String × Value) → CallLog → Nat × CallLog
  | [], calls => (0, calls)
  | (name, value) :: rest, calls =>
    let (size, calls) := r.recordSize? name value calls
    let (others, calls) := r.recordSizes rest calls
    (size.getD 0 + others, calls)

end Registry

namespace Attributes

def sectionSize (a : Attributes) (r : Registry) (calls : CallLog) : Nat × CallLog :=
  let (size, calls) := r.recordSizes a.entries calls
  (wordSize + size, calls)

def writeRecord (name : String) (payload : Bytes) : Writer Unit := do
  discard (Writer.text name)
  discard (Writer.count payload.length)
  discard (Writer.bytes payload)

def writeRecords : List (String × Bytes) → Writer Unit
  | [] => return
  | (name, payload) :: rest => do
    writeRecord name payload
    writeRecords rest

/-- Writes an attribute section; answers with the names that are left out.  All attributes are
packed before the first byte is written. -/
def write (a : Attributes) (r : Registry) : Packer (List String) := do
  let pass ← get
  let (result, calls) := r.packAll a.entries pass.calls
  set { pass with calls }
  Packer.writing do
    discard (Writer.count result.packed.length)
    writeRecords result.packed
  return result.dropped

def readRecord (r : Registry) (a : Attributes) : Reader Attributes := do
  let name ← Reader.text
  let length ← Reader.word UInt64
  let start ← Reader.position
  let payload ← Reader.bytes length.toNat
  match r.unpack name payload start with
  | .ok value => return a.insert name value
  | .error e => throw e

def read (r : Registry) : Reader Attributes := do
  let count ← Reader.word UInt64
  Reader.iterate (readRecord r) count.toNat ∅

end Attributes

end HardwareMap
