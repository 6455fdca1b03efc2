import HardwareMap.Layout.ChildTable
import HardwareMap.Topology.Component

/-!
# Component records

A component is stored as the tag of its kind, its id, a reference to its child table, its name and
the details of its kind, in this order and without gaps.  Its attributes follow the record.  The
reference is reserved when the record is written and filled in once the child table has a place.
-/

namespace HardwareMap

namespace Details

def encodedSize : Details → Nat
  | .cache c => 4 + Utf8.storedSize c.type + 8 + 4 + 4
  | .subdivision _ => 4
  | .numa _ | .storage _ => 8
  | .chip c => Utf8.storedSize c.vendor + Utf8.storedSize c.model + 4
  | .memory .. => 8 + 1
  | .generic | .thread | .core | .node | .topology => 0

def write : Details → Writer Unit
  | .cache c => do
    discard (Writer.word c.level)
    discard (Writer.text c.type)
    discard (Writer.word c.size)
    discard (Writer.word c.ways)
    discard (Writer.word c.lineSize)
  | .subdivision type => discard (Writer.word type)
  | .numa size | .storage size => discard (Writer.word size)
  | .chip c => do
    discard (Writer.text c.vendor)
    discard (Writer.text c.model)
    discard (Writer.word c.type)
  | .memory size isVolatile => do
    discard (Writer.word size)
    discard (Writer.word (if isVolatile then 1 else 0 : UInt8))
  | .generic | .thread | .core | .node | .topology => return

/-- Reads a flag, stored as a byte that is zero or one. -/
def readFlag : Reader Bool := do
  let start ← Reader.position
  match ← Reader.word UInt8 with
  | 0 => return false
  | 1 => return true
  | other => Reader.fail start (.volatileFlag other.toNat)

def read : Kind → Reader Details
  | .generic => return .generic
  | .thread => return .thread
  | .core => return .core
  | .node => return .node
  | .topology => return .topology
  | .cache => do
    let level ← Reader.word Int32
    let type ← Reader.text
    let size ← Reader.word Int64
    let ways ← Reader.word Int32
    let lineSize ← Reader.word Int32
    return .cache { level, type, size, ways, lineSize }
  | .subdivision => return .subdivision (← Reader.word Int32)
  | .numa => return .numa (← Reader.word Int64)
  | .storage => return .storage (← Reader.word Int64)
  | .chip => do
    let vendor ← Reader.text
    let model ← Reader.text
    let type ← Reader.word Int32
    return .chip { vendor, model, type }
  | .memory => do
    let size ← Reader.word Int64
    return .memory size (← readFlag)

end Details

namespace Component

def recordSize (c : Component) : Nat :=
  wordSize + 4 + ChildTable.encodedSize + Utf8.storedSize c.name + c.details.encodedSize

/-- Bytes of the smallest component: a record with an empty name and no details, and the count of
no attributes. -/
def minSize : Nat := wordSize + 4 + ChildTable.encodedSize + 1 + wordSize

/-- Where a record was written. -/
structure RecordPlace where
  /-- The offset of the record, by which it is referred to. -/
  start : Nat
  /-- The offset of its reference to a child table. -/
  tableSlot : Nat

/-- Writes a record whose reference to a child table is still empty. -/
def writeRecord (c : Component) : Writer RecordPlace := do
  let start ← Writer.word c.kind.tag
  discard (Writer.word c.id)
  let tableSlot ← Writer.reserve ChildTable.encodedSize
  discard (Writer.text c.name)
  c.details.write
  return { start, tableSlot }

/-- Reads a record at the cursor: the component without attributes, and its child table. -/
def readRecord : Reader (Component × ChildTable) := do
  let start ← Reader.position
  let tag ← Reader.word UInt64
  match Kind.ofTag? tag with
  | none => Reader.fail start (.unknownKind tag.toNat)
  | some kind =>
    let id ← Reader.word Int32
    let offset ← Reader.word UInt64
    let count ← Reader.word UInt64
    let name ← Reader.text
    let details ← Details.read kind
    return ({ id, name, details }, { offset := offset.toNat, count := count.toNat })

end Component

end HardwareMap
