import HardwareMap.Export.Estimate
import Mathlib.Algebra.Order.Group.Nat

/-!
# Whole pages

Sizes are rounded up to whole pages in machine words.  As long as these pages are a machine word they are
those of unbounded numbers: they hold what was rounded and are less than a page larger, and a larger size
has no fewer of them.  The last sizes below `2 ^ 64` have no such pages, and rounding them ends the
program (`roundToPage_eq`).
-/

namespace HardwareMap

/-! ## Unbounded numbers -/

/-- The least number of whole pages that holds so many bytes, in bytes. -/
def wholePages (n : Nat) : Nat := (n + 4095) / 4096 * 4096

theorem wholePages_mod (n : Nat) : wholePages n % 4096 = 0 := by
  unfold wholePages
  omega

theorem le_wholePages (n : Nat) : n ≤ wholePages n := by
  unfold wholePages
  omega

theorem wholePages_lt (n : Nat) : wholePages n < n + 4096 := by
  unfold wholePages
  omega

theorem wholePages_mono {m n : Nat} (h : m ≤ n) : wholePages m ≤ wholePages n := by
  unfold wholePages
  omega

theorem wholePages_wholePages (n : Nat) : wholePages (wholePages n) = wholePages n := by
  unfold wholePages
  omega

/-! ## Machine words -/

/-- The largest size that has whole pages. -/
def lastWholePage : Nat := UInt64.size - pageSize.toNat

theorem lastWholePage_eq : lastWholePage = 18446744073709547520 := rfl

/-- The pages are a machine word exactly up to the last whole page. -/
theorem wholePages_lt_size_iff {n : Nat} : wholePages n < UInt64.size ↔ n ≤ lastWholePage := by
  have hsize : UInt64.size = 18446744073709551616 := rfl
  rw [lastWholePage_eq, wholePages]
  omega

theorem wholePages_le_last {n : Nat} (h : n ≤ lastWholePage) : wholePages n ≤ lastWholePage := by
  rw [lastWholePage_eq] at h ⊢
  unfold wholePages
  omega

/-- Rounding gives the pages of unbounded numbers where they are a machine word, and ends the program
where they are none. -/
theorem roundToPage_eq (bytes : UInt64) : roundToPage bytes =
    if bytes.toNat ≤ lastWholePage then .ok (.ofNat (wholePages bytes.toNat))
    else .error (.crash .productOverflow) := by
  have hpage : pageSize.toNat = 4096 := rfl
  have hmod : (bytes % pageSize = 0) ↔ bytes.toNat % 4096 = 0 := by
    rw [← UInt64.toNat_inj, UInt64.toNat_mod, hpage]
    rfl
  have hpages : (bytes / pageSize + if bytes % pageSize = 0 then 0 else 1).toNat * 4096 =
      wholePages bytes.toNat := by
    have hlt := bytes.toNat_lt
    rw [UInt64.toNat_add, UInt64.toNat_div, hpage, wholePages]
    by_cases hzero : bytes.toNat % 4096 = 0
    · rw [if_pos (hmod.2 hzero), UInt64.toNat_zero]
      omega
    · rw [if_neg (mt hmod.1 hzero), UInt64.toNat_one]
      omega
  rw [roundToPage, hpage, checkedMul?, hpages]
  by_cases hle : bytes.toNat ≤ lastWholePage
  · rw [if_pos (wholePages_lt_size_iff.2 hle), if_pos hle]
  · rw [if_neg (mt wholePages_lt_size_iff.1 hle), if_neg hle]

theorem roundToPage_eq_ok {bytes pages : UInt64} :
    roundToPage bytes = .ok pages ↔
      bytes.toNat ≤ lastWholePage ∧ pages.toNat = wholePages bytes.toNat := by
  rw [roundToPage_eq]
  by_cases hle : bytes.toNat ≤ lastWholePage
  · have hnat := UInt64.toNat_ofNat_of_lt' (wholePages_lt_size_iff.2 hle)
    rw [if_pos hle, Except.ok.injEq, ← UInt64.toNat_inj, hnat, eq_comm, and_iff_right hle]
  · rw [if_neg hle]
    exact iff_of_false (by simp) fun h => hle h.1

/-! ## Estimates -/

namespace Estimate

/-- The estimate of so many components, tree bytes and path bytes in unbounded numbers. -/
def ofBytes (components treeBytes pathBytes : Nat) : Estimate :=
  let total := headerSize + treeBytes + pathBytes
  { components, treeBytes, pathBytes, total, fileSize := wholePages total }

/-- What comes of adding up an estimate: the estimate itself if its whole pages are a machine word, and
else the end of the program. -/
def outcome (e : Estimate) : Except Error Estimate :=
  if e.total ≤ lastWholePage then .ok e
  else .error (.crash (if e.total < UInt64.size then .productOverflow else .sumOverflow))

theorem ofCounts_eq (components treeBytes pathBytes : Nat) :
    ofCounts components treeBytes pathBytes = (ofBytes components treeBytes pathBytes).outcome := by
  let total := headerSize + treeBytes + pathBytes
  have htotal : (ofBytes components treeBytes pathBytes).total = total := rfl
  have hlast : lastWholePage < UInt64.size := by decide
  rw [outcome, htotal]
  by_cases hsum : UInt64.size ≤ total
  · rw [if_neg (by omega), if_neg (Nat.not_lt.2 hsum)]
    simp only [ofCounts, if_pos (show UInt64.size ≤ headerSize + treeBytes + pathBytes from hsum)]
    rfl
  · have hword : (UInt64.ofNat total).toNat = total := UInt64.toNat_ofNat_of_lt' (Nat.lt_of_not_le hsum)
    simp only [ofCounts, if_neg (show ¬ UInt64.size ≤ headerSize + treeBytes + pathBytes from hsum)]
    rw [show headerSize + treeBytes + pathBytes = total from rfl, roundToPage_eq, hword]
    by_cases hle : total ≤ lastWholePage
    · have hpages := UInt64.toNat_ofNat_of_lt' (wholePages_lt_size_iff.2 hle)
      rw [if_pos hle, if_pos hle]
      simp only [bind, Except.bind, pure, Except.pure, hpages]
      rfl
    · rw [if_neg hle, if_neg hle, if_pos (Nat.lt_of_not_le hsum)]
      rfl

end Estimate

/-- What the subtree under a root needs, added up in unbounded numbers. -/
def Graph.needed (g : Graph) (r : Registry) (root : ComponentId) (calls : CallLog) : Estimate :=
  let order := g.subtree root
  let bytes := (Estimate.listBytes g r order calls).1
  .ofBytes order.length bytes.1 (wordSize + bytes.2)

theorem Graph.estimate_eq_outcome {g : Graph} {root : ComponentId} (hroot : root < g.size)
    (r : Registry) (calls : CallLog) :
    g.estimate r root calls =
      ((g.needed r root calls).outcome, (Estimate.listBytes g r (g.subtree root) calls).2) := by
  simp only [estimate, if_pos (show root < g.members.size from hroot), Estimate.ofCounts_eq]
  rfl

/-- An estimate that was given is what is needed, and its whole pages are a machine word. -/
theorem Estimate.outcome_eq_ok {e estimate : Estimate} :
    e.outcome = .ok estimate ↔ e.total ≤ lastWholePage ∧ e = estimate := by
  rw [outcome]
  by_cases hle : e.total ≤ lastWholePage
  · rw [if_pos hle, Except.ok.injEq, and_iff_right hle]
  · rw [if_neg hle]
    exact iff_of_false (by simp) fun h => hle h.1

/-- Adding up an estimate fails only where a sum or its whole pages are no machine word. -/
theorem Estimate.outcome_eq_error {e : Estimate} {error : Error} (h : e.outcome = .error error) :
    error = .crash .sumOverflow ∨ error = .crash .productOverflow := by
  unfold outcome at h
  split at h
  · cases h
  · cases h
    split
    · exact .inr rfl
    · exact .inl rfl

/-- **What rounding to whole pages can hold**: whatever is rounded becomes a multiple of the page size that
is no less, and less than a page more, and that is rounded to itself; and no smaller size becomes more.
But only what is no more than the last whole page below `2 ^ 64` can be rounded.  Any larger size ends the
program, and so does an estimate with such a total; every other estimate has a file that is as long as
what was added up for it. -/
theorem roundToPage_exact_iff (bytes : UInt64) :
    (∀ pages, roundToPage bytes = .ok pages →
      pages % pageSize = 0 ∧ bytes ≤ pages ∧ pages.toNat < bytes.toNat + pageSize.toNat ∧
      roundToPage pages = .ok pages ∧
      ∀ less ≤ bytes, ∃ fewer, roundToPage less = .ok fewer ∧ fewer ≤ pages) ∧
    ((∃ pages, roundToPage bytes = .ok pages) ↔ bytes.toNat ≤ lastWholePage) ∧
    (lastWholePage < bytes.toNat → roundToPage bytes = .error (.crash .productOverflow)) ∧
    ∀ (g : Graph) (r : Registry) (root : ComponentId) (calls : CallLog), root < g.size →
      (g.needed r root calls).total = bytes.toNat →
        (∀ estimate, (g.estimate r root calls).1 = .ok estimate → estimate.total = bytes.toNat ∧
          estimate.total ≤ estimate.fileSize ∧ roundToPage bytes = .ok (.ofNat estimate.fileSize)) ∧
        (lastWholePage < bytes.toNat →
          (g.estimate r root calls).1 = .error (.crash .productOverflow)) := by
  refine ⟨fun pages hpages => ?_, ⟨?_, fun hle => ?_⟩, fun hlt => ?_, ?_⟩
  · obtain ⟨hle, hnat⟩ := roundToPage_eq_ok.1 hpages
    refine ⟨?_, ?_, ?_, ?_, fun less hless => ?_⟩
    · rw [← UInt64.toNat_inj, UInt64.toNat_mod, hnat]
      exact wholePages_mod _
    · show bytes.toNat ≤ pages.toNat
      rw [hnat]
      exact le_wholePages _
    · rw [hnat]
      exact wholePages_lt _
    · rw [roundToPage_eq_ok, hnat, wholePages_wholePages]
      exact ⟨wholePages_le_last hle, rfl⟩
    · have hless' : less.toNat ≤ bytes.toNat := hless
      have hle' : less.toNat ≤ lastWholePage := Nat.le_trans hless' hle
      have hfewer := UInt64.toNat_ofNat_of_lt' (wholePages_lt_size_iff.2 hle')
      refine ⟨.ofNat (wholePages less.toNat), roundToPage_eq_ok.2 ⟨hle', hfewer⟩, ?_⟩
      show (UInt64.ofNat (wholePages less.toNat)).toNat ≤ pages.toNat
      rw [hfewer, hnat]
      exact wholePages_mono hless'
  · rintro ⟨pages, hpages⟩
    exact (roundToPage_eq_ok.1 hpages).1
  · exact ⟨_, (roundToPage_eq bytes).trans (if_pos hle)⟩
  · exact (roundToPage_eq bytes).trans (if_neg (Nat.not_le.2 hlt))
  · intro g r root calls hroot htotal
    rw [Graph.estimate_eq_outcome hroot]
    refine ⟨fun estimate hestimate => ?_, fun hlt => ?_⟩
    · obtain ⟨hle, rfl⟩ := Estimate.outcome_eq_ok.1 hestimate
      have hsize : (g.needed r root calls).fileSize = wholePages bytes.toNat :=
        congrArg wholePages htotal
      rw [htotal] at hle
      rw [htotal, hsize]
      exact ⟨rfl, le_wholePages _, (roundToPage_eq bytes).trans (if_pos hle)⟩
    · rw [Estimate.outcome, htotal, if_neg (Nat.not_le.2 hlt), if_pos bytes.toNat_lt_size]

/-- The largest size of all ends the program. -/
theorem roundToPage_last :
    let last : UInt64 := 18446744073709551615
    roundToPage last = .error (.crash .productOverflow) ∧ ¬∃ pages, roundToPage last = .ok pages := by
  intro last
  have hcrash : roundToPage last = .error (.crash .productOverflow) :=
    (roundToPage_eq last).trans (if_neg (by decide))
  refine ⟨hcrash, fun ⟨pages, hpages⟩ => ?_⟩
  rw [hcrash] at hpages
  cases hpages

end HardwareMap
