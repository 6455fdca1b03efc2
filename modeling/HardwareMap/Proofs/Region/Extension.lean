import HardwareMap.Proofs.Region.Reads

/-!
# Reading a region that goes on

A reader that answers has seen no more than the bytes that it read, so its answer stays the same if
more bytes follow at the end of the region, and the cursor comes to the same place.  `Persists m m'`
says so of a reader `m`; the other reader `m'` may be one that answers more often.  Failures do not
persist: what lies outside of a region may lie inside of a longer one.
-/

namespace HardwareMap

variable {σ α β : Type}

theorem Bytes.slice_append {bytes : Bytes} {offset len : Nat} (h : offset + len ≤ bytes.length)
    (extra : Bytes) : (bytes ++ extra).slice offset len = bytes.slice offset len := by
  rw [slice, slice, List.drop_append_of_le_length (by omega),
    List.take_append_of_le_length (by rw [List.length_drop]; omega)]

/-! ## Answers that persist -/

/-- Whenever the first computation answers, the second one gives the same answer and leaves the same
state, however the region goes on. -/
def Persists (m m' : ReaderT Bytes (EStateM Error σ) α) : Prop :=
  ∀ (region extra : Bytes) (s : σ) (a : α) (s' : σ),
    m region s = .ok a s' → m' (region ++ extra) s = .ok a s'

namespace Persists

theorem pure (a : α) :
    Persists (Pure.pure a : ReaderT Bytes (EStateM Error σ) α) (Pure.pure a) :=
  fun _ _ _ _ _ h => h

theorem bind {m m' : ReaderT Bytes (EStateM Error σ) α}
    {f f' : α → ReaderT Bytes (EStateM Error σ) β} (hm : Persists m m')
    (hf : ∀ a, Persists (f a) (f' a)) : Persists (m >>= f) (m' >>= f') := by
  intro region extra s b s' h
  obtain ⟨a, t, hfirst, hlast⟩ := HardwareMap.bind_eq_ok (m := m region).1 h
  exact (HardwareMap.bind_eq_ok (m := m' (region ++ extra))).2
    ⟨a, t, hm region extra s a t hfirst, hf a region extra t b s' hlast⟩

theorem discard {m m' : ReaderT Bytes (EStateM Error σ) α} (hm : Persists m m') :
    Persists (Functor.discard m) (Functor.discard m') :=
  hm.bind fun _ => pure ()

end Persists

namespace Reader

/-- A failure has nothing that could persist. -/
theorem persists_fail (offset : Nat) (fault : Malformed) (m : Reader α) :
    Persists (fail offset fault) m := by
  intro region extra s a s' h
  cases h

theorem persists_position : Persists position position := by
  intro region extra s a s' h
  cases h
  rfl

theorem persists_add (m n : Nat) : Persists (add m n) (add m n) := by
  intro region extra s a s' h
  exact add_eq_ok.2 (add_eq_ok.1 h)

theorem persists_mul (m n : Nat) : Persists (mul m n) (mul m n) := by
  intro region extra s a s' h
  unfold mul at h ⊢
  cases hproduct : checkedMul? m n with
  | none =>
    rw [hproduct] at h
    cases h
  | some product =>
    rw [hproduct] at h
    exact h

/-- What lies inside of a region lies inside of a longer one. -/
theorem le_length_append {bytes extra : Bytes} {stop : Nat} (h : stop ≤ bytes.length) :
    stop ≤ (bytes ++ extra).length := by
  rw [List.length_append]
  exact Nat.le_add_right_of_le h

theorem persists_bytesAt (offset len : Nat) :
    Persists (bytesAt offset len) (bytesAt offset len) := by
  intro region extra s data s' h
  obtain ⟨hword, hle, rfl, rfl⟩ := bytesAt_eq_ok.1 h
  exact bytesAt_eq_ok.2 ⟨hword, le_length_append hle, (Bytes.slice_append hle extra).symm, rfl⟩

theorem persists_seek (offset : Nat) : Persists (seek offset) (seek offset) := by
  intro region extra s a s' h
  obtain ⟨hword, hle, rfl⟩ := seek_eq_ok.1 h
  exact seek_eq_ok.2 ⟨hword, le_length_append hle, rfl⟩

theorem persists_bytes (len : Nat) : Persists (bytes len) (bytes len) := by
  intro region extra s data s' h
  obtain ⟨hword, hle, rfl, rfl⟩ := bytes_eq_ok.1 h
  exact bytes_eq_ok.2 ⟨hword, le_length_append hle, (Bytes.slice_append hle extra).symm, rfl⟩

theorem persists_word (α : Type) [Word α] : Persists (word α) (word α) := by
  intro region extra s a s' h
  obtain ⟨hword, hle, rfl, rfl⟩ := word_eq_ok.1 h
  refine word_eq_ok.2 ⟨hword, le_length_append hle, ?_, rfl⟩
  rw [Bytes.slice_append hle]

/-- Text ends with the first zero byte, so nothing behind it is seen. -/
theorem persists_text : Persists text text := by
  intro region extra s t s' h
  obtain ⟨body, rest, hdrop, hfree, hdecode, hword, rfl⟩ := text_eq_ok.1 h
  have hle : s ≤ region.length :=
    Nat.le_of_lt (List.length_lt_of_drop_ne_nil (by rw [hdrop]; simp))
  refine text_eq_ok.2 ⟨body, rest ++ extra, ?_, hfree, hdecode, hword, rfl⟩
  rw [List.drop_append_of_le_length hle, hdrop, List.append_assoc, List.cons_append]

theorem persists_iterate {step step' : α → Reader α} (hstep : ∀ a, Persists (step a) (step' a))
    (count : Nat) (a : α) : Persists (iterate step count a) (iterate step' count a) := by
  induction count generalizing a with
  | zero => exact .pure a
  | succ count ih => exact (hstep a).bind fun b => ih b

end Reader

end HardwareMap
