import HardwareMap.Error
import HardwareMap.Word

/-!
# Sizes of a region file

A region file starts with one word, its own length in bytes; the region proper follows.  Files are
whole pages long when they come from an export.
-/

namespace HardwareMap

def wordSize : Nat := 8

/-- Bytes of the length word at the start of a region file. -/
def headerSize : Nat := 8

def pageSize : UInt64 := 4096

/-- The least number of whole pages that holds so many bytes, in bytes.  Sizes are machine words: the
last few of them have no such pages, and rounding them ends the program. -/
def roundToPage (bytes : UInt64) : Except Error UInt64 :=
  let pages := bytes / pageSize + if bytes % pageSize = 0 then 0 else 1
  match checkedMul? pages.toNat pageSize.toNat with
  | none => .error (.crash .productOverflow)
  | some size => .ok (.ofNat size)

end HardwareMap
