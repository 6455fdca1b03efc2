import HardwareMap.Bytes

/-!
# Fixed-width words

Every number field of a region file has one of a few machine types.  `Word` names what a field of
such a type needs, a width in bytes and a numbering of its values, and `toBytes_ofBytes` and
`ofBytes_toBytes` say that the stored form and the value determine each other.
-/

namespace HardwareMap

/-- A type whose values are numbered by the byte strings of one width. -/
class Word (α : Type) where
  /-- Bytes that one value occupies. -/
  width : Nat
  /-- The number of a value. -/
  code : α → Nat
  /-- The value of a number below the limit of the width. -/
  ofCode : Nat → α
  code_lt : ∀ a, code a < Bytes.limit width
  ofCode_code : ∀ a, ofCode (code a) = a
  code_ofCode : ∀ n, n < Bytes.limit width → code (ofCode n) = n

namespace Word

variable {α : Type} [Word α]

def toBytes (a : α) : Bytes := Bytes.littleEndian (width α) (code a)

def ofBytes (bytes : Bytes) : α := ofCode (Bytes.ofLittleEndian bytes)

@[simp] theorem length_toBytes (a : α) : (toBytes a).length = width α :=
  Bytes.length_littleEndian ..

@[simp] theorem ofBytes_toBytes (a : α) : ofBytes (toBytes a) = a := by
  rw [ofBytes, toBytes, Bytes.ofLittleEndian_littleEndian (code_lt a), ofCode_code]

theorem code_ofBytes {bytes : Bytes} (h : bytes.length = width α) :
    code (ofBytes bytes : α) = Bytes.ofLittleEndian bytes := by
  have hlt := Bytes.ofLittleEndian_lt bytes
  rw [h] at hlt
  exact code_ofCode _ hlt

theorem toBytes_ofBytes {bytes : Bytes} (h : bytes.length = width α) :
    toBytes (ofBytes bytes : α) = bytes := by
  rw [toBytes, code_ofBytes h, ← h, Bytes.littleEndian_ofLittleEndian]

end Word

/-- The sum of two machine words, if it is one. -/
def checkedAdd? (m n : Nat) : Option Nat := if m + n < UInt64.size then some (m + n) else none

/-- The product of two machine words, if it is one. -/
def checkedMul? (m n : Nat) : Option Nat := if m * n < UInt64.size then some (m * n) else none

instance : Word UInt8 where
  width := 1
  code := UInt8.toNat
  ofCode := UInt8.ofNat
  code_lt a := a.toNat_lt
  ofCode_code _ := UInt8.ofNat_toNat
  code_ofCode _ h := UInt8.toNat_ofNat_of_lt' h

instance : Word UInt32 where
  width := 4
  code := UInt32.toNat
  ofCode := UInt32.ofNat
  code_lt a := a.toNat_lt
  ofCode_code _ := UInt32.ofNat_toNat
  code_ofCode _ h := UInt32.toNat_ofNat_of_lt' h

instance : Word UInt64 where
  width := 8
  code := UInt64.toNat
  ofCode := UInt64.ofNat
  code_lt a := a.toNat_lt
  ofCode_code _ := UInt64.ofNat_toNat
  code_ofCode _ h := UInt64.toNat_ofNat_of_lt' h

instance : Word Int32 where
  width := 4
  code a := a.toUInt32.toNat
  ofCode n := (UInt32.ofNat n).toInt32
  code_lt a := a.toUInt32.toNat_lt
  ofCode_code a := by simp
  code_ofCode _ h := by simpa using UInt32.toNat_ofNat_of_lt' h

instance : Word Int64 where
  width := 8
  code a := a.toUInt64.toNat
  ofCode n := (UInt64.ofNat n).toInt64
  code_lt a := a.toUInt64.toNat_lt
  ofCode_code a := by simp
  code_ofCode _ h := by simpa using UInt64.toNat_ofNat_of_lt' h

end HardwareMap
