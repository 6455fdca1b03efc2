import HardwareMap.Layout.AttributeSection
import HardwareMap.Topology.DataPath

/-!
# Data path records

A data path is stored as the offsets of the two component records that it connects, the tag of its
orientation, its type and its two measurements.  Its attributes follow the record.
-/

namespace HardwareMap

/-- A data path as it is stored, its attributes apart. -/
structure PathRecord where
  source : Nat
  target : Nat
  orientation : Orientation
  type : PathType
  bandwidth : Binary64
  latency : Binary64
deriving DecidableEq

namespace PathRecord

def size : Nat := 2 * wordSize + 4 + 4 + 8 + 8

/-- The record of a path whose ends are stored at two offsets. -/
def ofPath (path : DataPath) (source target : Nat) : PathRecord :=
  { source
    target
    orientation := path.orientation
    type := path.type
    bandwidth := path.bandwidth
    latency := path.latency }

def write (p : PathRecord) : Writer Unit := do
  discard (Writer.count p.source)
  discard (Writer.count p.target)
  discard (Writer.word p.orientation.tag)
  discard (Writer.word p.type.code)
  discard (Writer.word p.bandwidth)
  discard (Writer.word p.latency)

def read : Reader PathRecord := do
  let source ← Reader.word UInt64
  let target ← Reader.word UInt64
  let start ← Reader.position
  let tag ← Reader.word UInt32
  match Orientation.ofTag? tag with
  | none => Reader.fail start (.unknownOrientation tag.toNat)
  | some orientation =>
    let type ← Reader.word Int32
    let bandwidth ← Reader.word Binary64
    let latency ← Reader.word Binary64
    return { source := source.toNat, target := target.toNat, orientation, type := ⟨type⟩,
             bandwidth, latency }

end PathRecord

def DataPath.storedSize (p : DataPath) (r : Registry) (calls : CallLog) : Nat × CallLog :=
  let (size, calls) := p.attributes.sectionSize r calls
  (PathRecord.size + size, calls)

end HardwareMap
