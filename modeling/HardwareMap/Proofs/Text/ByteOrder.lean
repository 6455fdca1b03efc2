import HardwareMap.Text.Utf8
import Mathlib.Tactic.SplitIfs

/-!
# Texts in the order of their bytes

Texts are compared character by character, a file lists names by their bytes.  UTF-8 makes no
difference between the two: the lead byte of a sequence tells how long it is, longer sequences stand
for later characters, and sequences of one length are numbers with their highest digit first
(`Utf8.encode_lt_encode`).
-/

namespace HardwareMap.Utf8

theorem encode_eq_flatMap (text : String) :
    encode text = text.toList.flatMap String.utf8EncodeChar := by
  rw [encode]
  conv => lhs; rw [← String.ofList_toList (s := text), String.toByteArray_ofList]
  rw [List.utf8Encode, List.data_toByteArray]

/-- The first byte decides, or whatever follows. -/
theorem ofNat_cons_lt {m n : Nat} {x y : Bytes} (hle : m ≤ n) (hn : n < 256) (h : m = n → x < y) :
    UInt8.ofNat m :: x < UInt8.ofNat n :: y := by
  rw [List.cons_lt_cons_iff, UInt8.lt_iff_toNat_lt, UInt8.toNat_ofNat', UInt8.toNat_ofNat']
  rcases Nat.lt_or_eq_of_le hle with hlt | heq
  · exact .inl (by omega)
  · exact .inr ⟨congrArg UInt8.ofNat heq, h heq⟩

/-- Later characters have later sequences, whatever follows them. -/
theorem utf8EncodeChar_lt {c d : Char} (h : c < d) (x y : Bytes) :
    String.utf8EncodeChar c ++ x < String.utf8EncodeChar d ++ y := by
  have hlt : c.val.toNat < d.val.toNat := UInt32.lt_iff_toNat_lt.1 (Char.lt_def.1 h)
  have hmax : d.val.toNat < 1114112 := by
    have hvalid := d.valid
    simp only [UInt32.isValidChar, Nat.isValidChar] at hvalid
    omega
  simp only [String.utf8EncodeChar]
  generalize c.val.toNat = m at *
  generalize d.val.toNat = n at *
  -- one case for each length of the first sequence, with the lengths that the second may have
  by_cases h₁ : m ≤ 127
  · rw [if_pos h₁]
    split_ifs <;> exact ofNat_cons_lt (by omega) (by omega) (by omega)
  rw [if_neg h₁, if_neg (show ¬ n ≤ 127 by omega)]
  by_cases h₂ : m ≤ 2047
  · rw [if_pos h₂]
    split_ifs
    · refine ofNat_cons_lt (by omega) (by omega) fun hlead => ?_
      exact ofNat_cons_lt (by omega) (by omega) (by omega)
    · exact ofNat_cons_lt (by omega) (by omega) (by omega)
    · exact ofNat_cons_lt (by omega) (by omega) (by omega)
  rw [if_neg h₂, if_neg (show ¬ n ≤ 2047 by omega)]
  by_cases h₃ : m ≤ 65535
  · rw [if_pos h₃]
    split_ifs
    · refine ofNat_cons_lt (by omega) (by omega) fun hlead => ?_
      refine ofNat_cons_lt (by omega) (by omega) fun hsecond => ?_
      exact ofNat_cons_lt (by omega) (by omega) (by omega)
    · exact ofNat_cons_lt (by omega) (by omega) (by omega)
  rw [if_neg h₃, if_neg (show ¬ n ≤ 65535 by omega)]
  refine ofNat_cons_lt (by omega) (by omega) fun hlead => ?_
  refine ofNat_cons_lt (by omega) (by omega) fun hsecond => ?_
  refine ofNat_cons_lt (by omega) (by omega) fun hthird => ?_
  exact ofNat_cons_lt (by omega) (by omega) (by omega)

theorem flatMap_utf8EncodeChar_lt {l l' : List Char} (h : l < l') :
    l.flatMap String.utf8EncodeChar < l'.flatMap String.utf8EncodeChar := by
  induction l generalizing l' with
  | nil =>
    cases l' with
    | nil => exact absurd h (List.lt_irrefl _)
    | cons d rest =>
      rw [List.flatMap_nil, List.flatMap_cons]
      cases hd : String.utf8EncodeChar d with
      | nil => exact absurd hd String.utf8EncodeChar_ne_nil
      | cons byte bytes => exact List.nil_lt_cons ..
  | cons c rest ih =>
    cases l' with
    | nil => exact absurd h (List.not_lt_nil _)
    | cons d rest' =>
      rw [List.flatMap_cons, List.flatMap_cons]
      rcases List.cons_lt_cons_iff.1 h with hlt | ⟨rfl, hrest⟩
      · exact utf8EncodeChar_lt hlt _ _
      · exact List.append_left_lt (ih hrest)

/-- UTF-8 keeps the order of texts. -/
theorem encode_lt_encode {s t : String} (h : s < t) : encode s < encode t := by
  rw [encode_eq_flatMap, encode_eq_flatMap]
  exact flatMap_utf8EncodeChar_lt (String.lt_iff.1 h)

/-- Names that follow each other in a map follow each other by their bytes. -/
theorem encode_lt_of_compare {s t : String} (h : compare s t = .lt) : encode s < encode t :=
  encode_lt_encode (compareOfLessAndEq_eq_lt.1 h)

end HardwareMap.Utf8
