import HardwareMap.Region.Page
import HardwareMap.Region.Window

/-!
# Child tables

A component record points at a table with one word per child, the offset of the child's record.
-/

namespace HardwareMap

/-- A reference to a table of child offsets. -/
structure ChildTable where
  /-- Where the table starts. -/
  offset : Nat
  /-- The number of children. -/
  count : Nat
deriving DecidableEq

namespace ChildTable

/-- Bytes of a stored reference: an offset and a count. -/
def encodedSize : Nat := 2 * wordSize

/-- Bytes of the table itself; none if they are no 64-bit number. -/
def size? (t : ChildTable) : Option Nat := checkedMul? t.count wordSize

def wordsOf : (count : Nat) → Bytes → List Nat
  | 0, _ => []
  | count + 1, bytes =>
    Bytes.ofLittleEndian (bytes.take wordSize) :: wordsOf count (bytes.drop wordSize)

/-- Reads the offsets in a table, wherever the cursor is. -/
def offsets (t : ChildTable) : Reader (List Nat) :=
  match t.size? with
  | none => Reader.fail t.offset .childCountOverflow
  | some size => do return wordsOf t.count (← Reader.bytesAt t.offset size)

def patch (slot : Nat) (t : ChildTable) : Writer Unit := do
  Writer.patchCount slot t.offset
  Writer.patchCount (slot + wordSize) t.count

end ChildTable

end HardwareMap
