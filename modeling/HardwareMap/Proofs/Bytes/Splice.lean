import HardwareMap.Bytes

/-!
# Overwriting and finding bytes

`Bytes.splice` overwrites a range and keeps everything around it (`getElem?_splice`), so writes next
to each other are one write (`splice_append`), writes to different ranges commute (`splice_comm`),
and a write inside another replaces that part of it (`splice_inside`).  `Bytes.Holds` says what
stands at an offset.
-/

namespace HardwareMap

namespace Bytes

variable {bytes patch : Bytes} {offset : Nat}

theorem getElem?_splice (h : offset ≤ bytes.length) (i : Nat) :
    (bytes.splice offset patch)[i]? =
      if i < offset then bytes[i]?
      else if i < offset + patch.length then patch[i - offset]?
      else bytes[i]? := by
  have htake : (bytes.take offset).length = offset := List.length_take_of_le h
  rw [splice_eq]
  by_cases hi : i < offset
  · rw [if_pos hi, List.getElem?_append_left (by rw [htake]; exact hi), List.getElem?_take, if_pos hi]
  · rw [if_neg hi, List.getElem?_append_right (by rw [htake]; omega), htake]
    by_cases hj : i < offset + patch.length
    · rw [if_pos hj, List.getElem?_append_left (by omega)]
    · rw [if_neg hj, List.getElem?_append_right (by omega), List.getElem?_drop]
      congr 1
      omega

/-- Writing one string behind another is writing both. -/
theorem splice_append {x y : Bytes} (h : offset + x.length + y.length ≤ bytes.length) :
    (bytes.splice offset x).splice (offset + x.length) y = bytes.splice offset (x ++ y) := by
  have hx : (bytes.splice offset x).length = bytes.length := length_splice (by omega)
  apply List.ext_getElem?
  intro k
  rw [getElem?_splice (by omega), getElem?_splice (by omega), getElem?_splice (by omega),
    List.length_append]
  by_cases h1 : k < offset
  · rw [if_pos (by omega), if_pos h1, if_pos h1]
  · by_cases h2 : k < offset + x.length
    · rw [if_pos h2, if_neg h1, if_pos h2, if_neg h1, if_pos (by omega),
        List.getElem?_append_left (by omega)]
    · rw [if_neg h2, if_neg h1, if_neg h2, if_neg h1, List.getElem?_append_right (by omega),
        Nat.sub_sub, Nat.add_assoc]

/-- Writes to different ranges can be exchanged. -/
theorem splice_comm {x y : Bytes} {i j : Nat} (hij : i + x.length ≤ j)
    (hj : j + y.length ≤ bytes.length) :
    (bytes.splice i x).splice j y = (bytes.splice j y).splice i x := by
  have hx : (bytes.splice i x).length = bytes.length := length_splice (by omega)
  have hy : (bytes.splice j y).length = bytes.length := length_splice hj
  apply List.ext_getElem?
  intro k
  rw [getElem?_splice (by omega), getElem?_splice (by omega), getElem?_splice (by omega),
    getElem?_splice (by omega)]
  by_cases h : k < j
  · rw [if_pos h, if_pos h]
  · have hi : ¬ k < i := by omega
    have hx' : ¬ k < i + x.length := by omega
    rw [if_neg h, if_neg hi, if_neg hx', if_neg h, if_neg hi, if_neg hx']

/-- A write over what was just written replaces it. -/
theorem splice_same {x y : Bytes} (hxy : y.length = x.length)
    (h : offset + x.length ≤ bytes.length) :
    (bytes.splice offset x).splice offset y = bytes.splice offset y := by
  have hx : (bytes.splice offset x).length = bytes.length := length_splice h
  apply List.ext_getElem?
  intro k
  rw [getElem?_splice (by omega), getElem?_splice (by omega), getElem?_splice (by omega), hxy]
  by_cases h1 : k < offset
  · rw [if_pos h1, if_pos h1, if_pos h1]
  · by_cases h2 : k < offset + x.length
    · rw [if_neg h1, if_pos h2, if_neg h1, if_pos h2]
    · rw [if_neg h1, if_neg h2, if_neg h1, if_neg h2, if_neg h1, if_neg h2]

/-- A write inside of what was just written replaces that part. -/
theorem splice_inside {x y z y' : Bytes} (hy : y'.length = y.length)
    (h : offset + x.length + y.length + z.length ≤ bytes.length) :
    (bytes.splice offset (x ++ (y ++ z))).splice (offset + x.length) y' =
      bytes.splice offset (x ++ (y' ++ z)) := by
  have hx : (bytes.splice offset x).length = bytes.length := length_splice (by omega)
  have hyy : ((bytes.splice offset x).splice (offset + x.length) y).length = bytes.length := by
    rw [length_splice (by omega), hx]
  calc (bytes.splice offset (x ++ (y ++ z))).splice (offset + x.length) y'
      = (((bytes.splice offset x).splice (offset + x.length) y).splice
          (offset + x.length + y.length) z).splice (offset + x.length) y' := by
        rw [splice_append (by omega), splice_append (by rw [List.length_append]; omega)]
    _ = (((bytes.splice offset x).splice (offset + x.length) y).splice (offset + x.length) y').splice
          (offset + x.length + y'.length) z := by
        rw [← hy, ← splice_comm (by omega) (by omega)]
    _ = ((bytes.splice offset x).splice (offset + x.length) y').splice
          (offset + x.length + y'.length) z := by rw [splice_same hy (by omega)]
    _ = bytes.splice offset (x ++ (y' ++ z)) := by
        rw [splice_append (by omega), splice_append (by rw [List.length_append]; omega)]

theorem length_slice {len : Nat} (h : offset + len ≤ bytes.length) :
    (bytes.slice offset len).length = len := by
  rw [slice, List.length_take, List.length_drop]
  omega

/-! ## What stands at an offset -/

/-- The string has these bytes at an offset. -/
def Holds (bytes : Bytes) (offset : Nat) (data : Bytes) : Prop :=
  ∃ front rest, bytes = front ++ (data ++ rest) ∧ front.length = offset

namespace Holds

variable {data : Bytes}

theorem le (h : bytes.Holds offset data) : offset + data.length ≤ bytes.length := by
  obtain ⟨front, rest, rfl, rfl⟩ := h
  simp only [List.length_append]
  omega

theorem slice_eq (h : bytes.Holds offset data) : bytes.slice offset data.length = data := by
  obtain ⟨front, rest, rfl, rfl⟩ := h
  rw [slice, List.drop_left, List.take_left]

theorem drop_eq (h : bytes.Holds offset data) : ∃ rest, bytes.drop offset = data ++ rest := by
  obtain ⟨front, rest, rfl, rfl⟩ := h
  exact ⟨rest, List.drop_left⟩

theorem left {x y : Bytes} (h : bytes.Holds offset (x ++ y)) : bytes.Holds offset x := by
  obtain ⟨front, rest, rfl, rfl⟩ := h
  exact ⟨front, y ++ rest, by rw [List.append_assoc], rfl⟩

theorem right {x y : Bytes} (h : bytes.Holds offset (x ++ y)) :
    bytes.Holds (offset + x.length) y := by
  obtain ⟨front, rest, rfl, rfl⟩ := h
  exact ⟨front ++ x, rest, by simp only [List.append_assoc], List.length_append⟩

end Holds

end Bytes

end HardwareMap
