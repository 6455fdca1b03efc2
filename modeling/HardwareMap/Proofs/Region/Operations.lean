import HardwareMap.Proofs.Region.Calls
import HardwareMap.Proofs.Region.Safety

/-!
# Operations on a region that fail

The end of a computation is steady if a failure leaves the state as it was (`Steady`).  Whatever only
looks at the state ends so, and may be followed by what ends so (`Steady.looking_bind`); so an operation
that checks before it writes or moves the cursor is steady.

One operation is not.  Text is written in two steps, and where the text fits but its zero byte does not
(`Operation.unterminated?`) the second step fails after the first one is done.  This is the only way in
which a failed operation changes anything (`Region.unchanged_on_failure_iff`).
-/

namespace HardwareMap

variable {σ α β : Type}

/-! ## Ends without effect -/

/-- A failure leaves the state as it was. -/
def Steady (s : σ) : EStateM.Result Error σ α → Prop
  | .ok _ _ => True
  | .error _ s' => s' = s

/-- Success and failure leave the state as it was. -/
def Looking (s : σ) : EStateM.Result Error σ α → Prop
  | .ok _ s' | .error _ s' => s' = s

theorem Looking.steady {result : EStateM.Result Error σ α} {s : σ} (h : Looking s result) :
    Steady s result := by
  cases result with
  | ok a s' => trivial
  | error e s' => exact h

theorem Steady.of_ok {result : EStateM.Result Error σ α} {s s' : σ} {a : α}
    (h : result = .ok a s') : Steady s result := by
  rw [h]
  trivial

section Bind

variable {m : ReaderT Bytes (EStateM Error σ) α} {f : α → ReaderT Bytes (EStateM Error σ) β}
  {region : Bytes} {s : σ}

/-- After a look at the state, something steady. -/
theorem Steady.looking_bind (hm : Looking s (m region s))
    (hf : ∀ a, m region s = .ok a s → Steady s (f a region s)) :
    Steady s ((m >>= f) region s) := by
  cases h : m region s with
  | ok a t =>
    have hbind : (m >>= f) region s = f a region t := bind_of_ok h
    rw [h] at hm
    obtain rfl : t = s := hm
    rw [hbind]
    exact hf a h
  | error e t =>
    have hbind : (m >>= f) region s = .error e t := bind_of_error h
    rw [h] at hm
    rw [hbind]
    exact hm

theorem Looking.bind (hm : Looking s (m region s)) (hf : ∀ a, Looking s (f a region s)) :
    Looking s ((m >>= f) region s) := by
  cases h : m region s with
  | ok a t =>
    have hbind : (m >>= f) region s = f a region t := bind_of_ok h
    rw [h] at hm
    obtain rfl : t = s := hm
    rw [hbind]
    exact hf a
  | error e t =>
    have hbind : (m >>= f) region s = .error e t := bind_of_error h
    rw [h] at hm
    rw [hbind]
    exact hm

end Bind

/-! ## Reading -/

namespace Reader

variable {region : Bytes} {cursor : Nat}

theorem looking_add (m n : Nat) : Looking cursor (add m n region cursor) := by
  unfold add
  cases checkedAdd? m n <;> rfl

theorem looking_slice (start stop : Nat) : Looking cursor (slice start stop region cursor) := by
  unfold slice
  split
  · rfl
  · split <;> rfl

theorem looking_sliceFrom (start : Nat) : Looking cursor (sliceFrom start region cursor) := by
  unfold sliceFrom
  split <;> rfl

theorem looking_front (data : Bytes) (len : Nat) :
    Looking cursor (front data len region cursor) := by
  unfold front
  split <;> rfl

theorem looking_copy (data : Bytes) (len : Nat) :
    Looking cursor (copy data len region cursor) := by
  unfold copy
  split <;> rfl

theorem looking_range (offset len : Nat) : Looking cursor (range offset len region cursor) := by
  have hsize : Looking cursor (size region cursor) := rfl
  refine hsize.bind fun size => ?_
  cases checkedAdd? offset len with
  | none => rfl
  | some stop =>
    dsimp only
    split <;> rfl

theorem looking_bytesAt (offset len : Nat) :
    Looking cursor (bytesAt offset len region cursor) :=
  (looking_range offset len).bind fun stop => looking_slice offset stop

theorem looking_wordAt (α : Type) [Word α] (offset : Nat) :
    Looking cursor (wordAt α offset region cursor) :=
  (looking_bytesAt offset _).bind fun data => (looking_copy data _).bind fun _ => rfl

/-- Asking for the place of the cursor is a look at the state. -/
theorem steady_position {f : Nat → Reader α} (hf : Steady cursor (f cursor region cursor)) :
    Steady cursor ((position >>= f) region cursor) :=
  hf

theorem steady_seek (offset : Nat) : Steady cursor (seek offset region cursor) := by
  have hrange : Looking cursor ((discard (range offset 0) : Reader Unit) region cursor) :=
    (looking_range offset 0).bind (f := fun _ => Pure.pure ()) fun _ => rfl
  exact .looking_bind hrange fun _ _ => trivial

theorem steady_bytes (len : Nat) : Steady cursor (Reader.bytes len region cursor) := by
  refine steady_position (.looking_bind (looking_range cursor len) fun stop hrange => ?_)
  obtain ⟨-, hle, rfl, -⟩ := range_eq_ok.1 hrange
  -- the cursor is moved before the slice is taken, but the range lies inside
  exact .of_ok (slice_eq (Nat.le_add_right cursor len) hle (cursor + len))

theorem steady_word (α : Type) [Word α] : Steady cursor (word α region cursor) :=
  steady_position (.looking_bind (looking_wordAt α cursor) fun _ _ =>
    .looking_bind (looking_add cursor _) fun _ _ => trivial)

theorem steady_text : Steady cursor (text region cursor) := by
  refine steady_position (.looking_bind (looking_sliceFrom cursor) fun tail _ => ?_)
  cases tail.findIdx? (· == 0) with
  | none => rfl
  | some len =>
    refine .looking_bind (looking_front tail len) fun found _ => ?_
    cases Utf8.decode? found with
    | none => rfl
    | some t =>
      exact .looking_bind (looking_add cursor len) fun sum _ =>
        .looking_bind (looking_add sum 1) fun _ _ => trivial

end Reader

/-! ## Writing -/

theorem Access.eq_write {access : Access} (h : access ≠ .read) : access = .write := by
  cases access with
  | write => rfl
  | read => exact absurd rfl h

namespace Window

/-- Appending takes the room that it needs, wherever the cursor is. -/
theorem remaining_append_of_le {w : Window} {data : Bytes} (h : data.length ≤ w.remaining) :
    (w.append data).remaining = w.remaining - data.length := by
  by_cases hempty : data = []
  · rw [hempty, append_nil]
    rfl
  · have hpos := List.length_pos_iff.2 hempty
    simp only [remaining, size, append] at h ⊢
    rw [Bytes.length_splice (by omega)]
    omega

end Window

namespace Writer

theorem steady_reading {reader : Reader α} {w : Window}
    (h : Steady w.cursor (reader w.bytes w.cursor)) : Steady w (reading reader w) := by
  unfold reading
  cases hreader : reader w.bytes w.cursor with
  | ok a cursor => trivial
  | error e cursor =>
    rw [hreader] at h
    obtain rfl : cursor = w.cursor := h
    rfl

theorem steady_bytes (data : Bytes) (w : Window) : Steady w (bytes data w) := by
  unfold bytes
  split
  · rfl
  · split
    · rfl
    · trivial

theorem steady_reserve (len : Nat) (w : Window) : Steady w (reserve len w) := by
  unfold reserve
  split
  · rfl
  · exact steady_bytes _ w

theorem steady_patch (offset : Nat) (data : Bytes) (w : Window) :
    Steady w (patch offset data w) := by
  unfold patch
  split
  · rfl
  · split
    · rfl
    · trivial

theorem bytes_eq_ok {data : Bytes} {w : Window} (hroom : data.length ≤ w.remaining)
    (haccess : w.access = .write) : bytes data w = .ok w.cursor (w.append data) := by
  unfold bytes
  rw [if_neg (Nat.not_lt.2 hroom), if_neg (by rw [haccess]; decide)]
  rfl

/-- Text without a zero byte, once its bytes are written: the zero byte follows if there is room. -/
theorem text_eq {t : String} {w : Window} (hnul : Utf8.hasNul t = false)
    (hroom : (Utf8.encode t).length ≤ w.remaining) (haccess : w.access = .write) :
    text t w =
      if w.remaining = (Utf8.encode t).length then
        .error (.insufficientSpace 1 0) (w.append (Utf8.encode t))
      else .ok w.cursor ((w.append (Utf8.encode t)).append [0]) := by
  let w₁ := w.append (Utf8.encode t)
  have hfirst : bytes (Utf8.encode t) w = .ok w.cursor w₁ := bytes_eq_ok hroom haccess
  have hroom₁ : w₁.remaining = w.remaining - (Utf8.encode t).length :=
    Window.remaining_append_of_le hroom
  have hrest : text t w = (do discard (bytes [0]); return w.cursor : Writer Nat) w₁ := by
    unfold text
    rw [if_neg (by rw [hnul]; decide)]
    exact bind_of_ok hfirst
  rw [hrest]
  by_cases hfull : w.remaining = (Utf8.encode t).length
  · have hnone : bytes [0] w₁ = .error (.insufficientSpace 1 0) w₁ := by
      unfold bytes
      rw [hroom₁, hfull, Nat.sub_self]
      rfl
    rw [if_pos hfull]
    exact bind_of_error (bind_of_error hnone)
  · have hone : bytes [0] w₁ = .ok w₁.cursor (w₁.append [0]) :=
      bytes_eq_ok (by simp only [List.length_singleton]; omega) haccess
    rw [if_neg hfull]
    exact bind_of_ok (bind_of_ok hone)

/-- Text is refused before anything of it is written, if its bytes cannot be written at all. -/
theorem text_eq_error {t : String} {w : Window}
    (h : ¬(Utf8.hasNul t = false ∧ (Utf8.encode t).length ≤ w.remaining ∧ w.access = .write)) :
    ∃ e, text t w = .error e w := by
  unfold text
  split
  · exact ⟨_, rfl⟩
  next hnul =>
    have hrefused : ∃ e, bytes (Utf8.encode t) w = .error e w := by
      unfold bytes
      by_cases hroom : w.remaining < (Utf8.encode t).length
      · exact ⟨_, if_pos hroom⟩
      · rw [if_neg hroom]
        have hread : w.access = .read := Decidable.byContradiction fun hread =>
          h ⟨Bool.eq_false_iff.2 hnul, Nat.le_of_not_lt hroom, Access.eq_write hread⟩
        exact ⟨_, if_pos hread⟩
    obtain ⟨e, herror⟩ := hrefused
    exact ⟨e, bind_of_error herror⟩

end Writer

/-! ## The operations of a region -/

/-- A call on the bytes and the cursor of a region, with its arguments and the type of its answer. -/
inductive Operation : Type → Type 1 where
  | seek (offset : Nat) : Operation Unit
  | writeBytes (data : Bytes) : Operation Nat
  | writeWord {α : Type} [Word α] (a : α) : Operation Nat
  | writeText (t : String) : Operation Nat
  | reserve (len : Nat) : Operation Nat
  | patchBytes (offset : Nat) (data : Bytes) : Operation Unit
  | patchWord {α : Type} [Word α] (offset : Nat) (a : α) : Operation Unit
  | readBytes (len : Nat) : Operation Bytes
  | readWord (α : Type) [Word α] : Operation α
  | readText : Operation String
  | bytesAt (offset len : Nat) : Operation Bytes
  | wordAt (α : Type) [Word α] (offset : Nat) : Operation α

namespace Operation

def perform : Operation α → Writer α
  | seek offset => Writer.reading (Reader.seek offset)
  | writeBytes data => Writer.bytes data
  | writeWord a => Writer.word a
  | writeText t => Writer.text t
  | reserve len => Writer.reserve len
  | patchBytes offset data => Writer.patch offset data
  | patchWord offset a => Writer.patchWord offset a
  | readBytes len => Writer.reading (Reader.bytes len)
  | readWord α => Writer.reading (Reader.word α)
  | readText => Writer.reading Reader.text
  | bytesAt offset len => Writer.reading (Reader.bytesAt offset len)
  | wordAt α offset => Writer.reading (Reader.wordAt α offset)

theorem call_perform (op : Operation α) : Writer.Call op.perform := by
  cases op <;> constructor

/-- The bytes of a text that takes all the room there is and leaves none for its zero byte. -/
def unterminated? : Operation α → Window → Option Bytes
  | writeText t, w =>
    let data := Utf8.encode t
    if Utf8.hasNul t = false ∧ w.access = .write ∧ data ≠ [] ∧ w.remaining = data.length then
      some data
    else none
  | _, _ => none

/-- Such a text is written, and the operation fails all the same. -/
theorem perform_eq_of_unterminated {op : Operation α} {w : Window} {data : Bytes}
    (h : op.unterminated? w = some data) :
    op.perform w = .error (.insufficientSpace 1 0) (w.append data) ∧ data ≠ [] := by
  cases op with
  | writeText t =>
    simp only [unterminated?, Option.ite_none_right_eq_some, Option.some_inj] at h
    obtain ⟨⟨hnul, haccess, hdata, hfull⟩, rfl⟩ := h
    refine ⟨?_, hdata⟩
    rw [perform, Writer.text_eq hnul (Nat.le_of_eq hfull.symm) haccess, if_pos hfull]
  | _ => cases h

theorem room_of_unterminated {op : Operation α} {w : Window} {data : Bytes}
    (h : op.unterminated? w = some data) : w.access = .write ∧ data.length ≤ w.remaining := by
  cases op with
  | writeText t =>
    simp only [unterminated?, Option.ite_none_right_eq_some, Option.some_inj] at h
    obtain ⟨⟨-, haccess, -, hfull⟩, rfl⟩ := h
    exact ⟨haccess, Nat.le_of_eq hfull.symm⟩
  | _ => cases h

/-- Every other operation that fails leaves the window as it was. -/
theorem steady_perform {op : Operation α} {w : Window} (h : op.unterminated? w = none) :
    Steady w (op.perform w) := by
  cases op with
  | seek offset => exact Writer.steady_reading (Reader.steady_seek offset)
  | writeBytes data => exact Writer.steady_bytes data w
  | writeWord a => exact Writer.steady_bytes (Word.toBytes a) w
  | writeText t =>
    by_cases hwritten : Utf8.hasNul t = false ∧ (Utf8.encode t).length ≤ w.remaining ∧
        w.access = .write
    · obtain ⟨hnul, hroom, haccess⟩ := hwritten
      rw [perform, Writer.text_eq hnul hroom haccess]
      by_cases hfull : w.remaining = (Utf8.encode t).length
      · have hempty : Utf8.encode t = [] := by
          simp only [unterminated?, ite_eq_right_iff, reduceCtorEq, imp_false] at h
          exact Decidable.byContradiction fun hdata => h ⟨hnul, haccess, hdata, hfull⟩
        rw [if_pos hfull, hempty, Window.append_nil]
        rfl
      · rw [if_neg hfull]
        trivial
    · obtain ⟨e, herror⟩ := Writer.text_eq_error hwritten
      rw [perform, herror]
      rfl
  | reserve len => exact Writer.steady_reserve len w
  | patchBytes offset data => exact Writer.steady_patch offset data w
  | patchWord offset a => exact Writer.steady_patch offset (Word.toBytes a) w
  | readBytes len => exact Writer.steady_reading (Reader.steady_bytes len)
  | readWord α => exact Writer.steady_reading (Reader.steady_word α)
  | readText => exact Writer.steady_reading Reader.steady_text
  | bytesAt offset len => exact Writer.steady_reading (Reader.looking_bytesAt offset len).steady
  | wordAt α offset => exact Writer.steady_reading (Reader.looking_wordAt α offset).steady

end Operation

/-- Giving a file the bytes that it has changes nothing. -/
theorem FileTree.setContents_contents (t : FileTree) (id : FileId) :
    t.setContents id (t.contents id) = t := by
  have hfiles : t.files.modify id (fun file => { file with bytes := t.contents id }) = t.files := by
    refine Array.ext_getElem? fun i => ?_
    rw [Array.getElem?_modify, contents, object]
    split
    next h =>
      subst h
      cases t.files[id]? <;> rfl
    · rfl
  simp only [setContents, hfiles]

namespace Region

/-- Putting back the window of a region changes nothing. -/
theorem store_window (r : Region) (t : FileTree) : r.store (r.window t) t = t := by
  unfold store
  split
  · rfl
  · rw [window, List.take_append_drop, FileTree.setContents_contents]

/-- **Failed operations on a region**: an operation that fails leaves the region with its cursor, and
the whole file tree with the bytes of the region, as they were, unless it writes text that takes all the
room there is and leaves none for its zero byte.  Such a text fails after it was written: its bytes are
in the region, and the cursor is behind them. -/
theorem unchanged_on_failure_iff (op : Operation α) (r : Region) (t : FileTree) :
    ((∀ e r' t', r.run op.perform t = (.error e, r', t') → r' = r ∧ t' = t) ↔
      op.unterminated? (r.window t) = none) ∧
    ∀ data, op.unterminated? (r.window t) = some data →
      data ≠ [] ∧ r.run op.perform t = (.error (.insufficientSpace 1 0),
        { r with cursor := r.cursor + data.length }, r.store ((r.window t).append data) t) := by
  have hunterminated : ∀ data, op.unterminated? (r.window t) = some data →
      data ≠ [] ∧ r.run op.perform t = (.error (.insufficientSpace 1 0),
        { r with cursor := r.cursor + data.length }, r.store ((r.window t).append data) t) := by
    intro data hdata
    obtain ⟨hrun, hne⟩ := Operation.perform_eq_of_unterminated hdata
    refine ⟨hne, ?_⟩
    unfold run
    rw [hrun]
    rfl
  refine ⟨⟨fun hsteady => ?_, fun hnone => ?_⟩, hunterminated⟩
  · cases hdata : op.unterminated? (r.window t) with
    | none => rfl
    | some data =>
      obtain ⟨hne, hrun⟩ := hunterminated data hdata
      obtain ⟨hregion, -⟩ := hsteady _ _ _ hrun
      have hcursor : r.cursor + data.length = r.cursor := congrArg cursor hregion
      have hpos := List.length_pos_iff.2 hne
      omega
  · intro e r' t' hrun
    have hsteady := Operation.steady_perform hnone
    unfold run at hrun
    cases hperform : op.perform (r.window t) with
    | ok a w =>
      rw [hperform] at hrun
      cases hrun
    | error e' w =>
      rw [hperform] at hrun hsteady
      obtain rfl : w = r.window t := hsteady
      cases hrun
      exact ⟨rfl, store_window r t⟩

/-- In a region of two bytes, two letters are written though the call fails: the zero byte behind them
has no place. -/
theorem changed_on_failure_letters :
    ∃ r t, create { path := "region", size := 10 } {} = (.ok r, t) ∧ r.cursor = 0 ∧
      r.window t = { access := .write, bytes := [0, 0] } ∧
      ∃ r' t', r.run (Operation.writeText "ab").perform t =
          (.error (.insufficientSpace 1 0), r', t') ∧
        r'.cursor = 2 ∧ (r'.window t').bytes = [97, 98] :=
  ⟨_, _, rfl, rfl, rfl, _, _, rfl, rfl, rfl⟩

end Region

end HardwareMap
