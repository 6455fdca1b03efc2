import HardwareMap.Word

/-!
# Binary floating point numbers

Floating point values are kept as their raw bits, so that copying and storing them loses nothing,
not even the payload of a NaN.  Two notions of sameness follow: equality of the bits, and the
numeric `same`, under which a NaN differs from itself and the two zeros agree.
-/

namespace HardwareMap

/-- A double precision number, given by its bits. -/
structure Binary64 where
  bits : UInt64
deriving DecidableEq, Inhabited

/-- A single precision number, given by its bits. -/
structure Binary32 where
  bits : UInt32
deriving DecidableEq, Inhabited

instance : Word Binary64 where
  width := 8
  code a := a.bits.toNat
  ofCode n := ⟨UInt64.ofNat n⟩
  code_lt a := a.bits.toNat_lt
  ofCode_code a := by simp
  code_ofCode _ h := UInt64.toNat_ofNat_of_lt' h

instance : Word Binary32 where
  width := 4
  code a := a.bits.toNat
  ofCode n := ⟨UInt32.ofNat n⟩
  code_lt a := a.bits.toNat_lt
  ofCode_code a := by simp
  code_ofCode _ h := UInt32.toNat_ofNat_of_lt' h

namespace Ieee

/-- How the bits of a format are divided: fraction bits lowest, then exponent bits, then a sign. -/
structure Format where
  fractionBits : Nat
  exponentBits : Nat

def Format.double : Format := ⟨52, 11⟩

def Format.single : Format := ⟨23, 8⟩

/-- The least binary exponent of a last place: that of the smallest positive number. -/
def Format.minExponent (f : Format) : Int :=
  2 - (1 <<< (f.exponentBits - 1) : Nat) - f.fractionBits

/-- What a bit string stands for, its sign apart. -/
inductive Magnitude where
  | nan
  | infinite
  /-- The number `m * 2 ^ q`. -/
  | finite (m : Nat) (q : Int)
deriving DecidableEq

def Format.fraction (f : Format) (bits : Nat) : Nat := bits % (1 <<< f.fractionBits)

def Format.exponent (f : Format) (bits : Nat) : Nat :=
  (bits >>> f.fractionBits) % (1 <<< f.exponentBits)

def Format.isNegative (f : Format) (bits : Nat) : Bool :=
  bits.testBit (f.fractionBits + f.exponentBits)

/-- Decodes the fields below the sign.  The lowest exponent has no implicit leading bit. -/
def Format.magnitude (f : Format) (bits : Nat) : Magnitude :=
  let fraction := f.fraction bits
  let exponent := f.exponent bits
  if exponent = (1 <<< f.exponentBits) - 1 then
    if fraction = 0 then .infinite else .nan
  else if exponent = 0 then .finite fraction f.minExponent
  else .finite ((1 <<< f.fractionBits) + fraction) (f.minExponent + (exponent - 1 : Nat))

/-- Numeric equality of two bit strings: equal bits that are no NaN, or two zeros. -/
def Format.same (f : Format) (a b : Nat) : Bool :=
  match f.magnitude a, f.magnitude b with
  | .nan, _ | _, .nan => false
  | .finite 0 _, .finite 0 _ => true
  | _, _ => a == b

end Ieee

def Binary64.same (a b : Binary64) : Bool := Ieee.Format.double.same a.bits.toNat b.bits.toNat

def Binary32.same (a b : Binary32) : Bool := Ieee.Format.single.same a.bits.toNat b.bits.toNat

end HardwareMap
