/-!
# Byte strings and little-endian numbers

A region file is a string of bytes, and every number in it is stored with its least significant
byte first.  `littleEndian` and `ofLittleEndian` are inverse to each other: on numbers that fit
the width (`ofLittleEndian_littleEndian`) and on byte strings (`littleEndian_ofLittleEndian`), so
a field of known width has exactly one stored form per number.
-/

namespace HardwareMap

abbrev Bytes := List UInt8

namespace Bytes

def zeros (n : Nat) : Bytes := List.replicate n 0

/-- The `len` bytes that start at `offset`, fewer if the string ends before. -/
def slice (bytes : Bytes) (offset len : Nat) : Bytes := (bytes.drop offset).take len

/-- The first `n` bytes and the others; there have to be so many. -/
def cutAt (bytes : Bytes) (n : Nat) (_h : n ≤ bytes.length) : Bytes × Bytes :=
  (bytes.take n, bytes.drop n)

/-- Passes over `offset` bytes, which it puts in front of `passed` in reverse, and overwrites what
comes next with `patch`. -/
def spliceFrom (passed : Bytes) : (bytes : Bytes) → (offset : Nat) → (patch : Bytes) → Bytes
  | bytes, 0, patch => passed.reverseAux (patch ++ bytes.drop patch.length)
  | [], _ + 1, patch => passed.reverseAux patch
  | byte :: rest, offset + 1, patch => spliceFrom (byte :: passed) rest offset patch

def splice (bytes : Bytes) (offset : Nat) (patch : Bytes) : Bytes :=
  spliceFrom [] bytes offset patch

/-- The `width` low-order bytes of a number, the least significant first. -/
def littleEndian : (width : Nat) → Nat → Bytes
  | 0, _ => []
  | width + 1, n => UInt8.ofNat n :: littleEndian width (n / 256)

/-- The number that a byte string stores, the first byte being the least significant. -/
def ofLittleEndian : Bytes → Nat
  | [] => 0
  | byte :: rest => byte.toNat + 256 * ofLittleEndian rest

theorem length_fst_cutAt {bytes : Bytes} {n : Nat} (h : n ≤ bytes.length) :
    (bytes.cutAt n h).1.length = n :=
  List.length_take_of_le h

theorem length_snd_cutAt {bytes : Bytes} {n : Nat} (h : n ≤ bytes.length) :
    (bytes.cutAt n h).2.length = bytes.length - n :=
  List.length_drop

theorem cutAt_append {front rest : Bytes} {n : Nat} (hn : front.length = n)
    (h : n ≤ (front ++ rest).length) : (front ++ rest).cutAt n h = (front, rest) := by
  rw [cutAt, List.take_left' hn, List.drop_left' hn]

@[simp] theorem length_zeros (n : Nat) : (zeros n).length = n := by simp [zeros]

theorem spliceFrom_eq (passed bytes : Bytes) (offset : Nat) (patch : Bytes) :
    spliceFrom passed bytes offset patch =
      passed.reverse ++ (bytes.take offset ++ (patch ++ bytes.drop (offset + patch.length))) := by
  fun_induction spliceFrom passed bytes offset patch with
  | case1 => simp
  | case2 => simp
  | case3 passed byte rest offset patch ih => simp [ih, Nat.add_right_comm]

/-- What is before the range and what is behind it stays. -/
theorem splice_eq (bytes : Bytes) (offset : Nat) (patch : Bytes) :
    bytes.splice offset patch =
      bytes.take offset ++ (patch ++ bytes.drop (offset + patch.length)) := by
  simp [splice, spliceFrom_eq]

theorem length_splice {bytes patch : Bytes} {offset : Nat}
    (h : offset + patch.length ≤ bytes.length) :
    (bytes.splice offset patch).length = bytes.length := by
  simp only [splice_eq, List.length_append, List.length_take, List.length_drop]
  omega

/-- The first number that does not fit a width, in bytes. -/
def limit : (width : Nat) → Nat
  | 0 => 1
  | width + 1 => 256 * limit width

@[simp] theorem length_littleEndian (width n : Nat) : (littleEndian width n).length = width := by
  induction width generalizing n with
  | zero => rfl
  | succ width ih => simp [littleEndian, ih]

theorem ofLittleEndian_lt (bytes : Bytes) : ofLittleEndian bytes < limit bytes.length := by
  induction bytes with
  | nil => simp [ofLittleEndian, limit]
  | cons byte rest ih =>
    have hb : byte.toNat < 256 := byte.toNat_lt
    simp only [ofLittleEndian, List.length_cons, limit]
    omega

theorem ofLittleEndian_littleEndian {width n : Nat} (h : n < limit width) :
    ofLittleEndian (littleEndian width n) = n := by
  induction width generalizing n with
  | zero => simp [littleEndian, ofLittleEndian, limit] at *; omega
  | succ width ih =>
    have hn : n / 256 < limit width := by
      rw [limit] at h
      omega
    simp only [littleEndian, ofLittleEndian, ih hn, UInt8.toNat_ofNat']
    omega

theorem littleEndian_ofLittleEndian (bytes : Bytes) :
    littleEndian bytes.length (ofLittleEndian bytes) = bytes := by
  induction bytes with
  | nil => rfl
  | cons byte rest ih =>
    have hb : byte.toNat < 256 := byte.toNat_lt
    have hdiv : (byte.toNat + 256 * ofLittleEndian rest) / 256 = ofLittleEndian rest := by omega
    simp only [List.length_cons, littleEndian, ofLittleEndian, hdiv, ih]
    congr 1
    apply UInt8.toNat_inj.1
    simp only [UInt8.toNat_ofNat']
    omega

end Bytes

end HardwareMap
