import HardwareMap.Attribute.Value
import Mathlib.Data.List.Forall2

/-!
# When values are the same

Values are compared as numbers where they are numbers, and then a NaN is the same as nothing, itself
included.  So sameness is no equivalence but a partial one: it is symmetric and transitive, and the
values that are the same as themselves are those without a NaN (`PartialEquivalence`).

A partial equivalence of parts makes one of pairs, lists and maps.  The numbers are where it starts
(`Ieee.Format.partialEquivalence`), and the attributes of an owner are where it ends
(`Attributes.partialEquivalence`).
-/

namespace HardwareMap

/-- A comparison that is an equivalence among the proper values.  Any other is the same as nothing. -/
structure PartialEquivalence {α : Type} (same : α → α → Bool) (proper : α → Prop) : Prop where
  self_iff : ∀ a, same a a = true ↔ proper a
  symm : ∀ a b, same a b = true → same b a = true
  trans : ∀ a b c, same a b = true → same b c = true → same a c = true

namespace PartialEquivalence

variable {α β : Type} {same same' : α → α → Bool} {proper proper' : α → Prop}

theorem congr (h : PartialEquivalence same proper) (hproper : ∀ a, proper a ↔ proper' a) :
    PartialEquivalence same proper' :=
  ⟨fun a => (h.self_iff a).trans (hproper a), h.symm, h.trans⟩

theorem beq [DecidableEq α] : PartialEquivalence (fun a b : α => a == b) fun _ => True where
  self_iff a := by simp
  symm a b hab := by simpa using (beq_iff_eq.1 hab).symm
  trans a b c hab hbc := by
    rw [beq_iff_eq] at hab hbc ⊢
    exact hab.trans hbc

/-- A comparison of parts. -/
theorem on (part : β → α) (h : PartialEquivalence same proper) :
    PartialEquivalence (fun a b => same (part a) (part b)) fun a => proper (part a) :=
  ⟨fun a => h.self_iff (part a), fun a b => h.symm (part a) (part b),
    fun a b c => h.trans (part a) (part b) (part c)⟩

theorem and (h : PartialEquivalence same proper) (h' : PartialEquivalence same' proper') :
    PartialEquivalence (fun a b => same a b && same' a b) fun a => proper a ∧ proper' a where
  self_iff a := by rw [Bool.and_eq_true, h.self_iff, h'.self_iff]
  symm a b hab := by
    rw [Bool.and_eq_true] at hab ⊢
    exact ⟨h.symm a b hab.1, h'.symm a b hab.2⟩
  trans a b c hab hbc := by
    rw [Bool.and_eq_true] at hab hbc ⊢
    exact ⟨h.trans a b c hab.1 hbc.1, h'.trans a b c hab.2 hbc.2⟩

/-- Lists are compared one element with one. -/
theorem all₂ (h : PartialEquivalence same proper) :
    PartialEquivalence (List.all₂ same) fun l => ∀ a ∈ l, proper a where
  self_iff l := by simp only [List.all₂_eq_true, List.forall₂_same, h.self_iff]
  symm l m hlm := by
    rw [List.all₂_eq_true] at hlm ⊢
    exact (hlm.imp fun a b => h.symm a b).flip
  trans l m n hlm hmn := by
    rw [List.all₂_eq_true] at hlm hmn ⊢
    induction hlm generalizing n with
    | nil => exact hmn
    | cons hab _ ih =>
      cases hmn with
      | cons hbc hrest => exact .cons (h.trans _ _ _ hab hbc) (ih _ hrest)

end PartialEquivalence

theorem all₂_cons {α : Type} (same : α → α → Bool) (a b : α) (as bs : List α) :
    List.all₂ same (a :: as) (b :: bs) = (same a b && List.all₂ same as bs) := by
  cases h : same a b <;> simp [List.all₂, h]

/-! ## Numbers -/

namespace Ieee.Format

variable (f : Format)

def isNan (bits : Nat) : Bool := f.magnitude bits == .nan

/-- Bits of a zero, whatever its sign. -/
def IsZero (bits : Nat) : Prop := ∃ q, f.magnitude bits = .finite 0 q

/-- Two numbers are the same if their bits are, or if both are zeros. -/
theorem same_eq_true_iff (a b : Nat) :
    f.same a b = true ↔
      f.isNan a = false ∧ f.isNan b = false ∧ (a = b ∨ f.IsZero a ∧ f.IsZero b) := by
  unfold same isNan IsZero
  split <;> simp_all

theorem partialEquivalence : PartialEquivalence f.same fun bits => f.isNan bits = false where
  self_iff a := by simp [same_eq_true_iff]
  symm a b hab := by
    rw [same_eq_true_iff] at hab ⊢
    obtain ⟨ha, hb, hsame⟩ := hab
    exact ⟨hb, ha, hsame.imp Eq.symm And.symm⟩
  trans a b c hab hbc := by
    rw [same_eq_true_iff] at hab hbc ⊢
    obtain ⟨ha, -, hab⟩ := hab
    obtain ⟨-, hc, hbc⟩ := hbc
    refine ⟨ha, hc, ?_⟩
    rcases hab with rfl | ⟨hza, hzb⟩
    · exact hbc
    · rcases hbc with rfl | ⟨-, hzc⟩
      · exact .inr ⟨hza, hzb⟩
      · exact .inr ⟨hza, hzc⟩

end Ieee.Format

def Binary64.isNan (a : Binary64) : Bool := Ieee.Format.double.isNan a.bits.toNat

def Binary32.isNan (a : Binary32) : Bool := Ieee.Format.single.isNan a.bits.toNat

theorem Binary64.partialEquivalence :
    PartialEquivalence Binary64.same fun a => a.isNan = false := by
  have h := Ieee.Format.double.partialEquivalence.on fun a : Binary64 => a.bits.toNat
  exact h

theorem Binary32.partialEquivalence :
    PartialEquivalence Binary32.same fun a => a.isNan = false := by
  have h := Ieee.Format.single.partialEquivalence.on fun a : Binary32 => a.bits.toNat
  exact h

/-! ## Values -/

namespace Value

/-- Whether a value is a NaN or holds one. -/
def hasNan : Value → Bool
  | .f64 a => a.isNan
  | .f32 a => a.isNan
  | .pairs samples => samples.any (·.2.isNan)
  | .tagged a _ => a.isNan
  | .u64 _ | .i64 _ | .i32 _ | .text _ | .bytes _ | .foreign .. => false

theorem sameSamples_eq (as bs : List (Int64 × Binary64)) :
    sameSamples as bs = List.all₂ (fun a b => a.1 == b.1 && a.2.same b.2) as bs := by
  induction as generalizing bs with
  | nil => cases bs <;> rfl
  | cons a as ih =>
    cases bs with
    | nil => rfl
    | cons b bs => rw [sameSamples, all₂_cons, ih]

theorem partialEquivalence_sameSamples :
    PartialEquivalence sameSamples fun samples => samples.any (·.2.isNan) = false := by
  have hpair : PartialEquivalence (fun a b : Int64 × Binary64 => a.1 == b.1 && a.2.same b.2)
      fun a => True ∧ a.2.isNan = false :=
    (PartialEquivalence.beq.on Prod.fst).and (Binary64.partialEquivalence.on Prod.snd)
  have hlist : sameSamples = List.all₂ fun a b => a.1 == b.1 && a.2.same b.2 :=
    funext fun as => funext (sameSamples_eq as)
  rw [hlist]
  exact hpair.all₂.congr fun samples => by simp

/-- How two values can be the same.  What a foreign value holds does not matter. -/
inductive Same : Value → Value → Prop
  | u64 (a : UInt64) : Same (.u64 a) (.u64 a)
  | i64 (a : Int64) : Same (.i64 a) (.i64 a)
  | i32 (a : Int32) : Same (.i32 a) (.i32 a)
  | f64 {a b : Binary64} (h : a.same b = true) : Same (.f64 a) (.f64 b)
  | f32 {a b : Binary32} (h : a.same b = true) : Same (.f32 a) (.f32 b)
  | text (t : String) : Same (.text t) (.text t)
  | pairs {as bs : List (Int64 × Binary64)} (h : sameSamples as bs = true) :
    Same (.pairs as) (.pairs bs)
  | tagged {a b : Binary64} (h : a.same b = true) (label : String) :
    Same (.tagged a label) (.tagged b label)
  | bytes (data : Bytes) : Same (.bytes data) (.bytes data)
  | foreign (identity : Identity) (a b : ForeignContent) :
    Same (.foreign identity a) (.foreign identity b)

theorem same_eq_true_iff {a b : Value} : a.same b = true ↔ Same a b := by
  constructor
  · intro h
    unfold same at h
    split at h
    case h_1 =>
      obtain rfl := beq_iff_eq.1 h
      exact .u64 _
    case h_2 =>
      obtain rfl := beq_iff_eq.1 h
      exact .i64 _
    case h_3 =>
      obtain rfl := beq_iff_eq.1 h
      exact .i32 _
    case h_4 => exact .f64 h
    case h_5 => exact .f32 h
    case h_6 =>
      obtain rfl := beq_iff_eq.1 h
      exact .text _
    case h_7 => exact .pairs h
    case h_8 =>
      obtain ⟨hnumber, hlabel⟩ := Bool.and_eq_true_iff.1 h
      obtain rfl := beq_iff_eq.1 hlabel
      exact .tagged hnumber _
    case h_9 =>
      obtain rfl := beq_iff_eq.1 h
      exact .bytes _
    case h_10 =>
      obtain rfl := beq_iff_eq.1 h
      exact .foreign _ _ _
    case h_11 => cases h
  · intro h
    cases h with
    | f64 h => exact h
    | f32 h => exact h
    | pairs h => exact h
    | tagged h label => simpa [same] using h
    | _ => simp [same]

theorem partialEquivalence : PartialEquivalence Value.same fun a => a.hasNan = false where
  self_iff a := by
    cases a with
    | f64 a => exact Binary64.partialEquivalence.self_iff a
    | f32 a => exact Binary32.partialEquivalence.self_iff a
    | pairs samples => exact partialEquivalence_sameSamples.self_iff samples
    | tagged a label => simpa [same, hasNan] using Binary64.partialEquivalence.self_iff a
    | _ => simp [same, hasNan]
  symm a b hab := by
    rw [same_eq_true_iff] at hab ⊢
    cases hab with
    | f64 h => exact .f64 (Binary64.partialEquivalence.symm _ _ h)
    | f32 h => exact .f32 (Binary32.partialEquivalence.symm _ _ h)
    | pairs h => exact .pairs (partialEquivalence_sameSamples.symm _ _ h)
    | tagged h label => exact .tagged (Binary64.partialEquivalence.symm _ _ h) label
    | _ => constructor
  trans a b c hab hbc := by
    rw [same_eq_true_iff] at hab hbc ⊢
    cases hab with
    | f64 h =>
      cases hbc with
      | f64 h' => exact .f64 (Binary64.partialEquivalence.trans _ _ _ h h')
    | f32 h =>
      cases hbc with
      | f32 h' => exact .f32 (Binary32.partialEquivalence.trans _ _ _ h h')
    | pairs h =>
      cases hbc with
      | pairs h' => exact .pairs (partialEquivalence_sameSamples.trans _ _ _ h h')
    | tagged h label =>
      cases hbc with
      | tagged h' => exact .tagged (Binary64.partialEquivalence.trans _ _ _ h h') label
    | foreign =>
      cases hbc
      constructor
    | _ => exact hbc

end Value

/-! ## Attributes -/

theorem SortedMap.go_eq {κ β : Type} [Ord κ] (same : β → β → Bool) (as bs : List (κ × β)) :
    agree.go same as bs =
      List.all₂ (fun a b => compare a.1 b.1 == .eq && same a.2 b.2) as bs := by
  induction as generalizing bs with
  | nil => cases bs <;> rfl
  | cons a as ih =>
    cases bs with
    | nil => rfl
    | cons b bs => rw [agree.go, all₂_cons, ih]

/-- Whether any of the attributes is a NaN or holds one. -/
def Attributes.hasNan (a : Attributes) : Bool := a.entries.any (·.2.hasNan)

theorem Attributes.partialEquivalence :
    PartialEquivalence Attributes.same fun a => a.hasNan = false := by
  have hnames (a b : String) : (compare a b == .eq) = (a == b) := by
    rw [Bool.eq_iff_iff, beq_iff_eq, beq_iff_eq]
    exact Std.LawfulEqCmp.compare_eq_iff_eq
  have hentry : PartialEquivalence
      (fun a b : String × Value => compare a.1 b.1 == .eq && a.2.same b.2)
      fun a => True ∧ a.2.hasNan = false := by
    simp only [hnames]
    exact (PartialEquivalence.beq.on Prod.fst).and (Value.partialEquivalence.on Prod.snd)
  have hmap : Attributes.same = fun a b => List.all₂
      (fun a b : String × Value => compare a.1 b.1 == .eq && a.2.same b.2) a.entries b.entries :=
    funext fun a => funext fun b => SortedMap.go_eq Value.same a.entries b.entries
  rw [hmap]
  exact (hentry.all₂.on SortedMap.entries).congr fun a => by simp [Attributes.hasNan]

end HardwareMap
