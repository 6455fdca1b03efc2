import HardwareMap.Proofs.Region.Reads

/-!
# Reading bytes that may be anything

`Orderly post` holds of the end of a computation that answers, its answer and state satisfying
`post`, or says that the bytes are malformed; it does not hold of a crash.  A reader advances by `n`
bytes (`Reader.Advances`) if it ends so from every cursor inside of a region, and an answer leaves
the cursor inside and at least `n` bytes further on.  Sequences add up what their steps advance by.
-/

namespace HardwareMap

variable {σ α β : Type}

/-- The end of a computation on bytes that may be anything. -/
def Orderly (post : α → σ → Prop) : EStateM.Result Error σ α → Prop
  | .ok a s => post a s
  | .error e _ => ∃ offset fault, e = .malformed offset fault

namespace Orderly

variable {post post' : α → σ → Prop}

theorem of_ok {result : EStateM.Result Error σ α} {a : α} {s : σ} (h : result = .ok a s)
    (hpost : post a s) : Orderly post result := by
  rw [h]
  exact hpost

theorem mono {result : EStateM.Result Error σ α} (h : Orderly post result)
    (hpost : ∀ a s, post a s → post' a s) : Orderly post' result := by
  cases result with
  | ok a s => exact hpost a s h
  | error e s => exact h

variable {m : ReaderT Bytes (EStateM Error σ) α} {region : Bytes} {s : σ}

theorem bind {goal : β → σ → Prop} {f : α → ReaderT Bytes (EStateM Error σ) β}
    (hm : Orderly post (m region s)) (hf : ∀ a t, post a t → Orderly goal (f a region t)) :
    Orderly goal ((m >>= f) region s) := by
  cases hfirst : m region s with
  | ok a t =>
    have hbind : (m >>= f) region s = f a region t := bind_of_ok hfirst
    rw [hfirst] at hm
    rw [hbind]
    exact hf a t hm
  | error e t =>
    have hbind : (m >>= f) region s = .error e t := bind_of_error hfirst
    rw [hfirst] at hm
    rw [hbind]
    exact hm

theorem discard {valid : σ → Prop} (hm : Orderly (fun _ => valid) (m region s)) :
    Orderly (fun _ => valid)
      ((discard m : ReaderT Bytes (EStateM Error σ) Unit) region s) :=
  hm.bind (f := fun _ => Pure.pure ()) fun _ _ hvalid => hvalid

end Orderly

namespace Reader

variable {region : Bytes} {cursor : Nat}

theorem orderly_position {goal : β → Nat → Prop} {f : Nat → Reader β}
    (hf : Orderly goal (f cursor region cursor)) :
    Orderly goal ((position >>= f) region cursor) :=
  hf

theorem orderly_size {goal : β → Nat → Prop} {f : Nat → Reader β}
    (hf : Orderly goal (f region.length region cursor)) :
    Orderly goal ((size >>= f) region cursor) :=
  hf

theorem orderly_fail {post : α → Nat → Prop} (offset : Nat) (fault : Malformed) :
    Orderly post (fail offset fault region cursor) :=
  ⟨offset, fault, rfl⟩

theorem orderly_add {m n : Nat} (h : m + n < UInt64.size) :
    Orderly (fun sum cursor' => sum = m + n ∧ cursor' = cursor) (add m n region cursor) :=
  .of_ok (add_eq h region cursor) ⟨rfl, rfl⟩

theorem orderly_mul {m n : Nat} (h : m * n < UInt64.size) :
    Orderly (fun product cursor' => product = m * n ∧ cursor' = cursor) (mul m n region cursor) :=
  .of_ok (mul_eq h region cursor) ⟨rfl, rfl⟩

/-! ## Reading at an offset -/

/-- A range is found inside the region, or it is reported. -/
theorem orderly_range (offset len : Nat) :
    Orderly (fun stop cursor' => offset + len ≤ region.length ∧ stop = offset + len ∧
      cursor' = cursor) (range offset len region cursor) := by
  refine orderly_size ?_
  by_cases hsum : offset + len < UInt64.size
  · by_cases hle : offset + len ≤ region.length
    · simp only [checkedAdd?, if_pos hsum, if_pos hle]
      exact ⟨hle, rfl, rfl⟩
    · simp only [checkedAdd?, if_pos hsum, if_neg hle]
      exact orderly_fail _ _
  · simp only [checkedAdd?, if_neg hsum]
    exact orderly_fail _ _

theorem orderly_bytesAt (offset len : Nat) :
    Orderly (fun data cursor' => offset + len ≤ region.length ∧ data.length = len ∧
      cursor' = cursor) (bytesAt offset len region cursor) := by
  refine (orderly_range offset len).bind ?_
  rintro stop _ ⟨hle, rfl, rfl⟩
  refine .of_ok (slice_eq (Nat.le_add_right offset len) hle _) ⟨hle, ?_, rfl⟩
  rw [Nat.add_sub_cancel_left]
  exact Bytes.length_slice hle

theorem orderly_wordAt (α : Type) [Word α] (offset : Nat) :
    Orderly (fun _ cursor' => offset + Word.width α ≤ region.length ∧ cursor' = cursor)
      (wordAt α offset region cursor) := by
  refine (orderly_bytesAt offset (Word.width α)).bind ?_
  rintro data _ ⟨hle, hlen, rfl⟩
  rw [copy, if_pos hlen]
  exact ⟨hle, rfl⟩

theorem orderly_seek (offset : Nat) :
    Orderly (fun _ cursor' => offset ≤ region.length ∧ cursor' = offset)
      (seek offset region cursor) := by
  have hrange : Orderly (fun _ _ => offset ≤ region.length) (range offset 0 region cursor) :=
    (orderly_range offset 0).mono fun _ _ h => h.1
  refine hrange.discard.bind ?_
  intro _ _ hle
  exact ⟨hle, rfl⟩

/-! ## Reading at the cursor -/

/-- From a cursor inside of a region the reader ends as it should, and an answer leaves the cursor
inside and at least `n` bytes further on. -/
def Advances (n : Nat) (m : Reader α) : Prop :=
  ∀ (region : Bytes) (cursor : Nat), region.length < UInt64.size → cursor ≤ region.length →
    Orderly (fun _ cursor' => cursor + n ≤ cursor' ∧ cursor' ≤ region.length) (m region cursor)

namespace Advances

variable {n k : Nat}

theorem pure (a : α) : Advances 0 (Pure.pure a : Reader α) :=
  fun _ _ _ hcursor => ⟨Nat.le_refl _, hcursor⟩

theorem fail (n offset : Nat) (fault : Malformed) :
    Advances n (Reader.fail offset fault : Reader α) :=
  fun _ _ _ _ => orderly_fail offset fault

theorem mono {m : Reader α} (h : Advances n m) (hk : k ≤ n) : Advances k m := by
  intro region cursor hlen hcursor
  refine (h region cursor hlen hcursor).mono ?_
  rintro _ _ ⟨hstep, hinside⟩
  exact ⟨Nat.le_trans (Nat.add_le_add_left hk cursor) hstep, hinside⟩

theorem bind {m : Reader α} {f : α → Reader β} (hm : Advances n m)
    (hf : ∀ a, Advances k (f a)) : Advances (n + k) (m >>= f) := by
  intro region cursor hlen hcursor
  refine (hm region cursor hlen hcursor).bind ?_
  rintro a t ⟨hfirst, hinside⟩
  refine (hf a region t hlen hinside).mono ?_
  rintro _ _ ⟨hsecond, hinside'⟩
  exact ⟨by omega, hinside'⟩

/-- Asking for the place of the cursor leaves it there. -/
theorem position {f : Nat → Reader β} (hf : ∀ start, Advances n (f start)) :
    Advances n (Reader.position >>= f) :=
  fun region cursor hlen hcursor => orderly_position (hf cursor region cursor hlen hcursor)

/-- Steps that each advance by at least nothing may be repeated as often as one likes. -/
theorem iterate {step : α → Reader α} (hstep : ∀ a, Advances 0 (step a)) (count : Nat) (a : α) :
    Advances 0 (Reader.iterate step count a) := by
  induction count generalizing a with
  | zero => exact pure a
  | succ count ih => exact (hstep a).bind fun b => ih b

end Advances

theorem advances_bytes (len : Nat) : Advances len (bytes len) := by
  intro region cursor hlen hcursor
  refine orderly_position ((orderly_range cursor len).bind ?_)
  rintro stop _ ⟨hle, rfl, rfl⟩
  exact .of_ok (slice_eq (Nat.le_add_right _ len) hle _) ⟨Nat.le_refl _, hle⟩

theorem advances_word (α : Type) [Word α] : Advances (Word.width α) (word α) := by
  intro region cursor hlen hcursor
  refine orderly_position ((orderly_wordAt α cursor).bind ?_)
  rintro a _ ⟨hle, rfl⟩
  refine (orderly_add (Nat.lt_of_le_of_lt hle hlen)).bind ?_
  rintro stop _ ⟨rfl, rfl⟩
  exact ⟨Nat.le_refl _, hle⟩

/-- Text that is read ends before the region does, with its zero byte. -/
theorem advances_text : Advances 1 text := by
  intro region cursor hlen hcursor
  have htail : Orderly (fun tail cursor' => tail = region.drop cursor ∧ cursor' = cursor)
      (sliceFrom cursor region cursor) := by
    rw [sliceFrom, if_neg (Nat.not_lt.2 hcursor)]
    exact ⟨rfl, rfl⟩
  refine orderly_position (htail.bind ?_)
  rintro _ start ⟨rfl, rfl⟩
  cases hfind : (region.drop start).findIdx? (· == 0) with
  | none => exact orderly_fail _ _
  | some len =>
    obtain ⟨hlt, -⟩ := List.findIdx?_eq_some_iff_getElem.1 hfind
    have hfront : Orderly (fun _ cursor' => cursor' = start)
        (front (region.drop start) len region start) := by
      rw [front, if_neg (Nat.not_lt.2 (Nat.le_of_lt hlt))]
      exact rfl
    rw [List.length_drop] at hlt
    refine hfront.bind ?_
    rintro found start rfl
    cases Utf8.decode? found with
    | none => exact orderly_fail _ _
    | some t =>
      refine (orderly_add (show start + len < UInt64.size by omega)).bind ?_
      rintro sum start ⟨rfl, rfl⟩
      refine (orderly_add (show start + len + 1 < UInt64.size by omega)).bind ?_
      rintro stop start ⟨rfl, rfl⟩
      exact ⟨by omega, by omega⟩

end Reader

end HardwareMap
