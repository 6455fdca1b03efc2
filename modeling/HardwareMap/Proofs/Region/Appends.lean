import HardwareMap.Proofs.Bytes.Splice
import HardwareMap.Region.Room

/-!
# Writers that append

Every part of an export is written at the cursor, right behind the part before.  `Appends` says of
such a writer which bytes it stores and what it answers; `Settles` says how it ends, also where it
fails: with too little room there is an error, and with enough room the only error is one about text
that holds its own terminator.  Both compose along `>>=`, where the bytes are appended.

What is overwritten later stands before the cursor, so it does not matter whether this is done
before or after more is appended (`Window.append_overwrite`).
-/

namespace HardwareMap

variable {σ α β : Type}

/-- The end of a computation that stores `len` bytes where there is so much room: it answers if what
it stores is valid and fits in, and only for invalid text does it fail although there is room. -/
structure Settles (valid : Prop) (len room : Nat) (result : EStateM.Result Error σ α) (a : α)
    (s : σ) : Prop where
  ok : valid → len ≤ room → result = .ok a s
  error : ¬(valid ∧ len ≤ room) → ∃ e s', result = .error e s' ∧
    (len ≤ room → ∃ t, e = .misuse (.interiorNul t))

namespace Settles

variable {valid valid' : Prop} {len len' room : Nat}

theorem of_ok {result : EStateM.Result Error σ α} {a : α} {s : σ} (h : result = .ok a s) :
    Settles True 0 room result a s :=
  ⟨fun _ _ => h, fun hnot => absurd ⟨trivial, Nat.zero_le room⟩ hnot⟩

theorem congr {result : EStateM.Result Error σ α} {a a' : α} {s s' : σ}
    (h : Settles valid len room result a s) (hvalid : valid ↔ valid') (hlen : len = len')
    (ha : a = a') (hs : s = s') : Settles valid' len' room result a' s' := by
  subst hlen ha hs
  exact ⟨fun hv => h.ok (hvalid.2 hv), fun hnot => h.error fun hv => hnot ⟨hvalid.1 hv.1, hv.2⟩⟩

/-- A sequence ends well if both steps do, the second one in the room that is left. -/
theorem bind {m : EStateM Error σ α} {f : α → EStateM Error σ β} {s t u : σ} {a : α} {b : β}
    (hm : Settles valid len room (m s) a t)
    (hf : valid → len ≤ room → Settles valid' len' (room - len) (f a t) b u) :
    Settles (valid ∧ valid') (len + len') room ((m >>= f) s) b u := by
  by_cases hfirst : valid ∧ len ≤ room
  · obtain ⟨hv, hroom⟩ := hfirst
    rw [bind_of_ok (hm.ok hv hroom)]
    have hsecond := hf hv hroom
    have hfit : len + len' ≤ room ↔ len' ≤ room - len := by omega
    refine ⟨fun h hlen => hsecond.ok h.2 (hfit.1 hlen), fun hnot => ?_⟩
    obtain ⟨e, s', heq, hnul⟩ := hsecond.error fun h => hnot ⟨⟨hv, h.1⟩, hfit.2 h.2⟩
    exact ⟨e, s', heq, fun hlen => hnul (hfit.1 hlen)⟩
  · obtain ⟨e, s', heq, hnul⟩ := hm.error hfirst
    rw [bind_of_error heq]
    refine ⟨fun h hlen => absurd ⟨h.1, by omega⟩ hfirst, fun _ => ⟨e, s', rfl, fun hlen => ?_⟩⟩
    exact hnul (by omega)

/-- The answer and the state matter only where there is room. -/
theorem congr_of_le {result : EStateM.Result Error σ α} {a a' : α} {s s' : σ}
    (h : Settles valid len room result a s) (hvalid : valid ↔ valid') (hlen : len = len')
    (ha : len ≤ room → a = a') (hs : len ≤ room → s = s') :
    Settles valid' len' room result a' s' := by
  subst hlen
  refine ⟨fun hv hle => ?_, fun hnot => h.error fun hv => hnot ⟨hvalid.1 hv.1, hv.2⟩⟩
  rw [← ha hle, ← hs hle]
  exact h.ok (hvalid.2 hv) hle

/-- A second step that stores nothing adds nothing to what the first one needs. -/
theorem bind_of_ok {m : EStateM Error σ α} {f : α → EStateM Error σ β} {s t u : σ} {a : α} {b : β}
    (hm : Settles valid len room (m s) a t) (hf : len ≤ room → f a t = .ok b u) :
    Settles valid len room ((m >>= f) s) b u := by
  have hbind : Settles (valid ∧ True) (len + 0) room ((m >>= f) s) b u :=
    hm.bind fun _ hroom => of_ok (hf hroom)
  exact hbind.congr (and_iff_left trivial) rfl rfl rfl

theorem map {m : EStateM Error σ α} {s t : σ} {a : α} (hm : Settles valid len room (m s) a t)
    (f : α → β) : Settles valid len room ((m >>= fun a => pure (f a)) s) (f a) t :=
  hm.bind_of_ok fun _ => rfl

end Settles

/-! ## Windows -/

namespace Window

/-- A window that can be written at its cursor. -/
structure Writable (w : Window) : Prop where
  access_eq : w.access = .write
  cursor_le : w.cursor ≤ w.bytes.length

/-- The window after bytes were written at the cursor. -/
def append (w : Window) (data : Bytes) : Window :=
  { w with bytes := w.bytes.splice w.cursor data, cursor := w.cursor + data.length }

variable {w : Window} {x y : Bytes}

@[simp] theorem cursor_append (w : Window) (data : Bytes) :
    (w.append data).cursor = w.cursor + data.length := rfl

@[simp] theorem append_nil (w : Window) : w.append [] = w := by
  rw [append, Bytes.splice_eq, List.nil_append, List.length_nil, Nat.add_zero,
    List.take_append_drop]

theorem le_length_of_le_remaining (hw : w.Writable) {n : Nat} (h : n ≤ w.remaining) :
    w.cursor + n ≤ w.bytes.length := by
  have := hw.cursor_le
  unfold remaining size at h
  omega

theorem length_append (hw : w.Writable) (h : x.length ≤ w.remaining) :
    (w.append x).bytes.length = w.bytes.length :=
  Bytes.length_splice (le_length_of_le_remaining hw h)

theorem writable_append (hw : w.Writable) (h : x.length ≤ w.remaining) : (w.append x).Writable where
  access_eq := hw.access_eq
  cursor_le := by
    rw [length_append hw h]
    exact le_length_of_le_remaining hw h

theorem remaining_append (hw : w.Writable) (h : x.length ≤ w.remaining) :
    (w.append x).remaining = w.remaining - x.length := by
  rw [remaining, size, length_append hw h, cursor_append, remaining, size, Nat.sub_sub]

theorem append_append (hw : w.Writable) (h : (x ++ y).length ≤ w.remaining) :
    (w.append x).append y = w.append (x ++ y) := by
  have hle := le_length_of_le_remaining hw h
  rw [List.length_append] at hle
  simp only [append, List.length_append, ← Nat.add_assoc]
  rw [Bytes.splice_append (by omega)]

/-! ### Overwriting what stands before the cursor -/

/-- The window with other bytes at an offset. -/
def overwrite (w : Window) (offset : Nat) (data : Bytes) : Window :=
  { w with bytes := w.bytes.splice offset data }

variable {offset : Nat}

theorem length_overwrite (hw : w.Writable) (h : offset + x.length ≤ w.cursor) :
    (w.overwrite offset x).bytes.length = w.bytes.length :=
  Bytes.length_splice (Nat.le_trans h hw.cursor_le)

theorem writable_overwrite (hw : w.Writable) (h : offset + x.length ≤ w.cursor) :
    (w.overwrite offset x).Writable where
  access_eq := hw.access_eq
  cursor_le := by
    rw [length_overwrite hw h]
    exact hw.cursor_le

theorem remaining_overwrite (hw : w.Writable) (h : offset + x.length ≤ w.cursor) :
    (w.overwrite offset x).remaining = w.remaining := by
  rw [remaining, size, length_overwrite hw h]
  rfl

theorem append_overwrite (hw : w.Writable) (h : offset + x.length ≤ w.cursor)
    (hy : y.length ≤ w.remaining) :
    (w.overwrite offset x).append y = (w.append y).overwrite offset x := by
  have hle := le_length_of_le_remaining hw hy
  simp only [append, overwrite]
  rw [Bytes.splice_comm h hle]

theorem overwrite_comm (hw : w.Writable) {place : Nat} (h : offset + x.length ≤ place)
    (hy : place + y.length ≤ w.cursor) :
    (w.overwrite offset x).overwrite place y = (w.overwrite place y).overwrite offset x := by
  have hle := hw.cursor_le
  simp only [overwrite]
  rw [Bytes.splice_comm h (by omega)]

/-- Overwriting a part of what was appended is appending it with that part. -/
theorem overwrite_append (hw : w.Writable) {z y' : Bytes} (hy : y'.length = y.length)
    (h : (x ++ (y ++ z)).length ≤ w.remaining) :
    (w.append (x ++ (y ++ z))).overwrite (w.cursor + x.length) y' =
      w.append (x ++ (y' ++ z)) := by
  have hle := le_length_of_le_remaining hw h
  simp only [List.length_append] at hle
  simp only [append, overwrite, List.length_append, hy]
  rw [Bytes.splice_inside hy (by omega)]

end Window

/-! ## Appending -/

/-- The computation stores `data` at the cursor of a window, if it is valid, and answers by where
the data starts.  The window is part of the states `before` and `after`. -/
def AppendsFrom (before after : Window → σ) (m : EStateM Error σ α) (valid : Prop) (data : Bytes)
    (answer : Nat → α) : Prop :=
  ∀ w, w.Writable →
    Settles valid data.length w.remaining (m (before w)) (answer w.cursor) (after (w.append data))

/-- The writer stores `data` at the cursor, if it is valid, and answers by where the data starts. -/
abbrev Appends (m : Writer α) (valid : Prop) (data : Bytes) (answer : Nat → α) : Prop :=
  AppendsFrom (fun w => w) (fun w => w) m valid data answer

namespace AppendsFrom

variable {before between after : Window → σ} {valid valid' : Prop} {x y : Bytes}

theorem congr {m : EStateM Error σ α} {answer answer' : Nat → α}
    (h : AppendsFrom before after m valid x answer)
    (hvalid : valid ↔ valid') (hdata : x = y) (hanswer : ∀ start, answer start = answer' start) :
    AppendsFrom before after m valid' y answer' := by
  intro w hw
  exact (h w hw).congr hvalid (by rw [hdata]) (hanswer _) (by rw [hdata])

theorem pure (a : α) :
    AppendsFrom before before (Pure.pure a : EStateM Error σ α) True [] fun _ => a :=
  fun w _ => .of_ok (by rw [Window.append_nil]; rfl)

/-- What the second step stores stands behind what the first one stores. -/
theorem bind {m : EStateM Error σ α} {f : α → EStateM Error σ β} {first : Nat → α}
    {answer : Nat → Nat → β} (hm : AppendsFrom before between m valid x first)
    (hf : ∀ start, AppendsFrom between after (f (first start)) valid' y (answer start)) :
    AppendsFrom before after (m >>= f) (valid ∧ valid') (x ++ y) fun start =>
      answer start (start + x.length) := by
  intro w hw
  have hbind : Settles (valid ∧ valid') (x.length + y.length) w.remaining ((m >>= f) (before w))
      (answer w.cursor (w.cursor + x.length)) (after ((w.append x).append y)) :=
    (hm w hw).bind fun _ hx => by
      have hsecond := hf w.cursor _ (Window.writable_append hw hx)
      rwa [Window.remaining_append hw hx] at hsecond
  refine hbind.congr_of_le Iff.rfl List.length_append.symm (fun _ => rfl) fun hle => ?_
  rw [Window.append_append hw (by rw [List.length_append]; exact hle)]

theorem map {m : EStateM Error σ α} {answer : Nat → α}
    (h : AppendsFrom before after m valid x answer) (f : α → β) :
    AppendsFrom before after (m >>= fun a => Pure.pure (f a)) valid x fun start =>
      f (answer start) :=
  fun w hw => (h w hw).map f

theorem discard {m : EStateM Error σ α} {answer : Nat → α}
    (h : AppendsFrom before after m valid x answer) :
    AppendsFrom before after (discard m) valid x fun _ => () :=
  h.map fun _ => ()

/-- One step after another, the first one's answer being thrown away. -/
theorem seq {m : EStateM Error σ Unit} {n : EStateM Error σ β} {answer : Nat → β}
    (hm : AppendsFrom before between m valid x fun _ => ())
    (hn : AppendsFrom between after n valid' y answer) :
    AppendsFrom before after (do m; n) (valid ∧ valid') (x ++ y) fun start =>
      answer (start + x.length) :=
  hm.bind fun _ => hn

end AppendsFrom

namespace Writer

theorem appends_bytes (data : Bytes) : Appends (bytes data) True data id := by
  intro w hw
  unfold bytes
  by_cases h : data.length ≤ w.remaining
  · rw [if_neg (Nat.not_lt.2 h), if_neg (by rw [hw.access_eq]; decide)]
    exact ⟨fun _ _ => rfl, fun hnot => absurd ⟨trivial, h⟩ hnot⟩
  · rw [if_pos (Nat.lt_of_not_le h)]
    exact ⟨fun _ hle => absurd hle h, fun _ => ⟨_, _, rfl, fun hle => absurd hle h⟩⟩

theorem appends_reserve (len : Nat) : Appends (reserve len) True (Bytes.zeros len) id := by
  intro w hw
  have hbytes := appends_bytes (Bytes.zeros len) w hw
  unfold reserve
  rw [Bytes.length_zeros] at hbytes ⊢
  by_cases h : len ≤ w.remaining
  · rw [if_neg (Nat.not_lt.2 h)]
    exact hbytes
  · rw [if_pos (Nat.lt_of_not_le h)]
    exact ⟨fun _ hle => absurd hle h, fun _ => ⟨_, _, rfl, fun hle => absurd hle h⟩⟩

theorem appends_word {α : Type} [Word α] (a : α) : Appends (word a) True (Word.toBytes a) id :=
  appends_bytes _

/-- The stored form of a number: a 64-bit word. -/
abbrev countBytes (n : Nat) : Bytes := Word.toBytes (UInt64.ofNat n)

theorem appends_count (n : Nat) : Appends (count n) True (countBytes n) id :=
  appends_bytes _

theorem patch_eq {w : Window} (hw : w.Writable) {offset : Nat} (data : Bytes)
    (h : offset + data.length ≤ w.cursor) : patch offset data w = .ok () (w.overwrite offset data) := by
  have hle := Nat.le_trans h hw.cursor_le
  unfold patch
  rw [if_neg (Nat.not_lt.2 (show offset + data.length ≤ w.size from hle)),
    if_neg (by rw [hw.access_eq]; decide)]
  rfl

theorem length_countBytes (n : Nat) : (countBytes n).length = wordSize := Word.length_toBytes _

end Writer

/-- The stored form of a text: its bytes, and a zero byte behind them. -/
def Utf8.stored (t : String) : Bytes := Utf8.encode t ++ [0]

@[simp] theorem Utf8.length_stored (t : String) : (Utf8.stored t).length = Utf8.storedSize t := by
  simp [Utf8.stored, Utf8.storedSize]

namespace Writer

/-- Text is refused if it holds a zero byte, and before anything of it is written. -/
theorem appends_text (t : String) :
    Appends (text t) (Utf8.hasNul t = false) (Utf8.stored t) id := by
  unfold text
  cases h : Utf8.hasNul t with
  | true =>
    intro w hw
    rw [if_pos rfl]
    exact ⟨fun hv _ => Bool.noConfusion hv, fun _ => ⟨_, _, rfl, fun _ => ⟨t, rfl⟩⟩⟩
  | false =>
    rw [if_neg (by decide)]
    refine ((appends_bytes (Utf8.encode t)).bind fun start =>
      (appends_bytes [0]).discard.seq (.pure start)).congr ?_ ?_ fun _ => rfl
    · simp
    · rw [List.append_nil, Utf8.stored]

end Writer

end HardwareMap
