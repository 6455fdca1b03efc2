import HardwareMap.Region.Room

/-!
# Which failures there can be

A computation is confined if it fails only with errors of one sort and otherwise leads to states of one
sort (`Confined`).  Every write is guarded by itself, so writing is confined to whatever takes in the
three ways in which a single write can fail (`Tolerates`), and every reader fails with malformed bytes or
ends the program, whatever the bytes are (`Reader.Confined`).
-/

namespace HardwareMap

variable {σ α β : Type}

/-- From states that satisfy `inv` the computation leads to states that do, or its error is one to
blame. -/
def Confined (inv : σ → Prop) (blame : Error → Prop) (m : EStateM Error σ α) : Prop :=
  ∀ s, inv s →
    match m s with
    | .ok _ s' => inv s'
    | .error e _ => blame e

namespace Confined

variable {inv : σ → Prop} {blame : Error → Prop}

theorem pure (a : α) : Confined inv blame (Pure.pure a : EStateM Error σ α) := fun _ h => h

theorem throw {e : Error} (h : blame e) :
    Confined inv blame (throw e : EStateM Error σ α) := fun _ _ => h

theorem bind {m : EStateM Error σ α} {f : α → EStateM Error σ β} (hm : Confined inv blame m)
    (hf : ∀ a, Confined inv blame (f a)) : Confined inv blame (m >>= f) := by
  intro s h
  have hfirst := hm s h
  cases hrun : m s with
  | ok a t =>
    rw [hrun] at hfirst
    rw [bind_of_ok hrun]
    exact hf a t hfirst
  | error e t =>
    rw [hrun] at hfirst
    rw [bind_of_error hrun]
    exact hfirst

theorem discard {m : EStateM Error σ α} (hm : Confined inv blame m) :
    Confined inv blame (discard m) :=
  hm.bind fun _ => .pure ()

end Confined

/-! ## Writing -/

/-- A sort of windows, and the errors that come of writing to them.  Writing changes the bytes and the
cursor of a window, never its access. -/
structure Tolerates (inv : Window → Prop) (blame : Error → Prop) : Prop where
  keeps : ∀ {w w' : Window}, inv w → w'.access = w.access → inv w'
  space : ∀ requested available, blame (.insufficientSpace requested available)
  text : ∀ t, blame (.misuse (.interiorNul t))
  readOnly : ∀ w, inv w → w.access = .read → blame (.misuse .readOnly)

namespace Writer

variable {inv : Window → Prop} {blame : Error → Prop} (h : Tolerates inv blame)

include h

theorem confined_bytes (data : Bytes) : Confined inv blame (bytes data) := by
  intro w hw
  unfold bytes
  by_cases hroom : w.remaining < data.length
  · rw [if_pos hroom]
    exact h.space _ _
  · rw [if_neg hroom]
    by_cases haccess : w.access = .read
    · rw [if_pos haccess]
      exact h.readOnly w hw haccess
    · rw [if_neg haccess]
      exact h.keeps hw rfl

theorem confined_reserve (len : Nat) : Confined inv blame (reserve len) := by
  intro w hw
  unfold reserve
  by_cases hroom : w.remaining < len
  · rw [if_pos hroom]
    exact h.space _ _
  · rw [if_neg hroom]
    exact confined_bytes h _ w hw

theorem confined_patch (offset : Nat) (data : Bytes) : Confined inv blame (patch offset data) := by
  intro w hw
  unfold patch
  by_cases hroom : w.size < offset + data.length
  · rw [if_pos hroom]
    exact h.space _ _
  · rw [if_neg hroom]
    by_cases haccess : w.access = .read
    · rw [if_pos haccess]
      exact h.readOnly w hw haccess
    · rw [if_neg haccess]
      exact h.keeps hw rfl

theorem confined_word {α : Type} [Word α] (a : α) : Confined inv blame (word a) :=
  confined_bytes h _

theorem confined_count (n : Nat) : Confined inv blame (count n) := confined_bytes h _

theorem confined_patchCount (offset n : Nat) : Confined inv blame (patchCount offset n) :=
  confined_patch h _ _

theorem confined_text (t : String) : Confined inv blame (text t) := by
  unfold text
  split
  · exact .throw (h.text t)
  · exact .bind (confined_bytes h _) fun _ => .bind (confined_bytes h [0]).discard fun _ => .pure _

end Writer

/-! ## Reading -/

/-- What can go wrong with reading. -/
inductive Error.Unreadable : Error → Prop
  | malformed (offset : Nat) (fault : Malformed) : Unreadable (.malformed offset fault)
  | crash (fault : Crash) : Unreadable (.crash fault)

namespace Reader

/-- Whatever the bytes are and wherever the cursor is, the reader answers or says what is wrong with
reading there. -/
def Confined (m : Reader α) : Prop :=
  ∀ region, HardwareMap.Confined (fun _ => True) Error.Unreadable (m region)

namespace Confined

theorem pure (a : α) : Confined (Pure.pure a : Reader α) := fun _ _ _ => trivial

theorem bind {m : Reader α} {f : α → Reader β} (hm : Confined m) (hf : ∀ a, Confined (f a)) :
    Confined (m >>= f) :=
  fun region => (hm region).bind fun a => hf a region

theorem discard {m : Reader α} (hm : Confined m) : Confined (discard m) :=
  hm.bind fun _ => .pure ()

end Confined

theorem confined_position : Confined position := fun _ _ _ => trivial

theorem confined_size : Confined size := fun _ _ _ => trivial

theorem confined_moveTo (offset : Nat) : Confined (moveTo offset) := fun _ _ _ => trivial

theorem confined_fail (offset : Nat) (fault : Malformed) : Confined (fail offset fault : Reader α) :=
  fun _ _ _ => .malformed offset fault

theorem confined_crash (fault : Crash) : Confined (crash fault : Reader α) :=
  fun _ _ _ => .crash fault

theorem confined_add (m n : Nat) : Confined (add m n) := by
  unfold add
  cases checkedAdd? m n with
  | none => exact confined_crash _
  | some sum => exact .pure sum

theorem confined_mul (m n : Nat) : Confined (mul m n) := by
  unfold mul
  cases checkedMul? m n with
  | none => exact confined_crash _
  | some product => exact .pure product

theorem confined_slice (start stop : Nat) : Confined (slice start stop) := by
  intro region cursor _
  unfold slice
  by_cases horder : stop < start
  · rw [if_pos horder]
    exact .crash _
  · rw [if_neg horder]
    by_cases hstop : region.length < stop
    · rw [if_pos hstop]
      exact .crash _
    · rw [if_neg hstop]
      trivial

theorem confined_sliceFrom (start : Nat) : Confined (sliceFrom start) := by
  intro region cursor _
  unfold sliceFrom
  by_cases hstart : region.length < start
  · rw [if_pos hstart]
    exact .crash _
  · rw [if_neg hstart]
    trivial

theorem confined_front (data : Bytes) (len : Nat) : Confined (front data len) := by
  unfold front
  split
  · exact confined_crash _
  · exact .pure _

theorem confined_copy (data : Bytes) (len : Nat) : Confined (copy data len) := by
  unfold copy
  split
  · exact .pure _
  · exact confined_crash _

theorem confined_range (offset len : Nat) : Confined (range offset len) := by
  refine .bind confined_size fun size => ?_
  cases checkedAdd? offset len with
  | none => exact confined_fail _ _
  | some stop =>
    dsimp only
    split
    · exact .pure _
    · exact confined_fail _ _

theorem confined_bytesAt (offset len : Nat) : Confined (bytesAt offset len) :=
  .bind (confined_range offset len) fun stop => confined_slice offset stop

theorem confined_wordAt (α : Type) [Word α] (offset : Nat) : Confined (wordAt α offset) :=
  .bind (confined_bytesAt offset _) fun data => .bind (confined_copy data _) fun _ => .pure _

theorem confined_seek (offset : Nat) : Confined (seek offset) :=
  .bind (confined_range offset 0).discard fun _ => confined_moveTo offset

theorem confined_bytes (len : Nat) : Confined (bytes len) :=
  .bind confined_position fun start => .bind (confined_range start len) fun stop =>
    .bind (confined_moveTo stop) fun _ => confined_slice start stop

theorem confined_word (α : Type) [Word α] : Confined (word α) :=
  .bind confined_position fun start => .bind (confined_wordAt α start) fun _ =>
    .bind (confined_add start _) fun stop => .bind (confined_moveTo stop) fun _ => .pure _

theorem confined_text : Confined text := by
  refine .bind confined_position fun start => .bind (confined_sliceFrom start) fun tail => ?_
  cases tail.findIdx? (· == 0) with
  | none => exact confined_fail _ _
  | some len =>
    refine .bind (confined_front tail len) fun found => ?_
    cases Utf8.decode? found with
    | none => exact confined_fail _ _
    | some t =>
      exact .bind (confined_add start len) fun sum => .bind (confined_add sum 1) fun stop =>
        .bind (confined_moveTo stop) fun _ => .pure t

theorem confined_iterate {step : α → Reader α} (h : ∀ a, Confined (step a)) (count : Nat) (a : α) :
    Confined (iterate step count a) := by
  induction count generalizing a with
  | zero => exact .pure a
  | succ count ih => exact .bind (h a) ih

end Reader

end HardwareMap
