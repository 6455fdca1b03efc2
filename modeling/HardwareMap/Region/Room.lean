import HardwareMap.Region.Window

/-!
# The room that a computation takes

A computation on a window `Takes` at least `n` bytes if success leaves that much less room than
there was.  Sequences add up what their steps take (`Takes.bind`), so whatever writes a record at
each turn comes to an end.
-/

namespace HardwareMap

section Bind

variable {ε σ α β : Type} {m : EStateM ε σ α} {f : α → EStateM ε σ β} {s s' : σ}

theorem bind_of_ok {a : α} (h : m s = .ok a s') : (m >>= f) s = f a s' := by
  change EStateM.bind m f s = _
  rw [EStateM.bind, h]

theorem bind_of_error {e : ε} (h : m s = .error e s') : (m >>= f) s = .error e s' := by
  change EStateM.bind m f s = _
  rw [EStateM.bind, h]

/-- A sequence succeeds when its first step does and then its second. -/
theorem bind_eq_ok {b : β} :
    (m >>= f) s = .ok b s' ↔ ∃ a t, m s = .ok a t ∧ f a t = .ok b s' := by
  cases h : m s with
  | ok a t =>
    rw [bind_of_ok h]
    simp only [EStateM.Result.ok.injEq, exists_and_left, and_assoc, exists_eq_left']
  | error e t =>
    rw [bind_of_error h]
    simp only [reduceCtorEq, false_and, exists_false]

end Bind

/-- A sequence of readers succeeds when its first step does and then its second. -/
theorem Reader.bind_eq_ok {α β : Type} {m : Reader α} {f : α → Reader β} {bytes : Bytes}
    {s s' : Nat} {b : β} :
    (m >>= f) bytes s = .ok b s' ↔ ∃ a t, m bytes s = .ok a t ∧ f a bytes t = .ok b s' :=
  HardwareMap.bind_eq_ok (m := m bytes)

/-- A range is inside the region, and its end is a machine word. -/
theorem Reader.range_eq_ok {offset len stop : Nat} {bytes : Bytes} {s s' : Nat} :
    range offset len bytes s = .ok stop s' ↔
      offset + len < UInt64.size ∧ offset + len ≤ bytes.length ∧ offset + len = stop ∧ s = s' := by
  rw [range, Reader.bind_eq_ok]
  constructor
  · rintro ⟨_, _, ⟨⟩, h⟩
    by_cases hsum : offset + len < UInt64.size
    · simp only [checkedAdd?, if_pos hsum] at h
      by_cases hle : offset + len ≤ bytes.length
      · rw [if_pos hle] at h
        cases h
        exact ⟨hsum, hle, rfl, rfl⟩
      · rw [if_neg hle] at h
        cases h
    · simp only [checkedAdd?, if_neg hsum] at h
      cases h
  · rintro ⟨hsum, hle, rfl, rfl⟩
    refine ⟨_, _, rfl, ?_⟩
    simp only [checkedAdd?, if_pos hsum, if_pos hle]
    rfl

/-- Success leaves at least `n` less room than there was. -/
def Takes {σ α : Type} (room : σ → Nat) (n : Nat) (m : EStateM Error σ α) : Prop :=
  ∀ s a s', m s = .ok a s' → room s' + n ≤ room s

namespace Takes

variable {σ α β : Type} {room : σ → Nat}

theorem mono {n k : Nat} {m : EStateM Error σ α} (h : Takes room n m) (hk : k ≤ n) :
    Takes room k m :=
  fun s a s' hm => by
    have := h s a s' hm
    omega

theorem pure (a : α) : Takes room 0 (Pure.pure a : EStateM Error σ α) := by
  intro s b s' h
  cases h
  exact Nat.le_refl _

theorem throw (e : Error) (n : Nat) : Takes room n (throw e : EStateM Error σ α) := by
  intro s b s' h
  cases h

theorem bind {n k : Nat} {m : EStateM Error σ α} {f : α → EStateM Error σ β}
    (hm : Takes room n m) (hf : ∀ a, Takes room k (f a)) : Takes room (n + k) (m >>= f) := by
  intro s b s' h
  obtain ⟨a, t, ha, hb⟩ := bind_eq_ok.1 h
  have := hm s a t ha
  have := hf a t b s' hb
  omega

theorem discard {n : Nat} {m : EStateM Error σ α} (h : Takes room n m) :
    Takes room n (discard m) := by
  intro s b s' hm
  obtain ⟨a, t, ha, hb⟩ := bind_eq_ok.1 (show (m >>= fun _ => Pure.pure ()) s = _ from hm)
  cases hb
  exact h s a _ ha

end Takes

namespace Writer

theorem takes_bytes (data : Bytes) : Takes Window.remaining data.length (bytes data) := by
  intro w a w' h
  unfold bytes at h
  split at h
  · cases h
  next hroom =>
    split at h
    · cases h
    · cases h
      simp only [Window.remaining, Window.size, Bytes.splice_eq, List.length_append,
        List.length_take, List.length_drop] at hroom ⊢
      omega

theorem takes_reserve (len : Nat) : Takes Window.remaining len (reserve len) := by
  intro w a w' h
  unfold reserve at h
  split at h
  · cases h
  · simpa using takes_bytes (Bytes.zeros len) w a w' h

theorem takes_patch (offset : Nat) (data : Bytes) :
    Takes Window.remaining 0 (patch offset data) := by
  intro w a w' h
  unfold patch at h
  split at h
  · cases h
  next hroom =>
    split at h
    · cases h
    · cases h
      have hlen := Bytes.length_splice (Nat.le_of_not_lt hroom)
      simp only [Window.remaining, Window.size, hlen]
      omega

theorem takes_word {α : Type} [Word α] (a : α) :
    Takes Window.remaining (Word.width α) (word a) := by
  simpa [word] using takes_bytes (Word.toBytes a)

theorem takes_patchCount (offset n : Nat) :
    Takes Window.remaining 0 (patchCount offset n) :=
  takes_patch offset _

theorem takes_count (n : Nat) : Takes Window.remaining wordSize (count n) :=
  takes_word (UInt64.ofNat n)

theorem takes_text (t : String) : Takes Window.remaining (Utf8.storedSize t) (text t) := by
  unfold text
  split
  · exact .throw _ _
  · exact .bind (takes_bytes _) fun _ => .bind (takes_bytes [0]).discard fun _ => .pure _

end Writer

end HardwareMap
