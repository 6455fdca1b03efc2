import HardwareMap.Proofs.Region.Frame
import HardwareMap.Proofs.Region.Mapped

/-!
# Calls on a region

Whatever is called on a region, and whether it succeeds or fails, the window keeps its length and its
access (`Writer.Call.keepsShape`).  So a file that holds its own length in its header still does
after every call (`Region.Intact.run`), and nothing but the bytes of this one file changes in the
tree (`Region.keeps_run`).
-/

namespace HardwareMap

variable {α β : Type}

/-- Two windows of one length and one access. -/
structure Window.SameShape (w w' : Window) : Prop where
  access_eq : w'.access = w.access
  length_eq : w'.bytes.length = w.bytes.length

namespace Window.SameShape

variable {w w' w'' : Window}

theorem refl (w : Window) : SameShape w w := ⟨rfl, rfl⟩

theorem trans (h : SameShape w w') (h' : SameShape w' w'') : SameShape w w'' :=
  ⟨h'.access_eq.trans h.access_eq, h'.length_eq.trans h.length_eq⟩

end Window.SameShape

/-! ## Where a call leaves the window -/

namespace Writer

/-- The window after a computation, whether it succeeded or failed. -/
def after (m : Writer α) (w : Window) : Window :=
  match m w with
  | .ok _ w' | .error _ w' => w'

/-- The window has the same length and the same access afterwards. -/
def KeepsShape (m : Writer α) : Prop := ∀ w : Window, w.SameShape (m.after w)

namespace KeepsShape

theorem pure (a : α) : KeepsShape (Pure.pure a : Writer α) := fun w => .refl w

theorem throw (e : Error) : KeepsShape (throw e : Writer α) := fun w => .refl w

theorem bind {m : Writer α} {f : α → Writer β} (hm : KeepsShape m) (hf : ∀ a, KeepsShape (f a)) :
    KeepsShape (m >>= f) := by
  intro w
  have hfirst := hm w
  have hbind : (m >>= f).after w = match m w with
      | .ok a w' => (f a).after w'
      | .error _ w' => w' := by
    change Writer.after (EStateM.bind m f) w = _
    unfold after EStateM.bind
    cases m w <;> rfl
  rw [hbind]
  unfold after at hfirst
  cases h : m w with
  | ok a w' =>
    rw [h] at hfirst
    exact hfirst.trans (hf a w')
  | error e w' =>
    rw [h] at hfirst
    exact hfirst

theorem discard {m : Writer α} (hm : KeepsShape m) : KeepsShape (discard m) :=
  hm.bind fun _ => pure ()

end KeepsShape

theorem keepsShape_bytes (data : Bytes) : KeepsShape (bytes data) := by
  intro w
  unfold after bytes
  by_cases hroom : w.remaining < data.length
  · rw [if_pos hroom]
    exact .refl w
  · rw [if_neg hroom]
    by_cases haccess : w.access = .read
    · rw [if_pos haccess]
      exact .refl w
    · rw [if_neg haccess]
      refine ⟨rfl, ?_⟩
      -- the cursor may be past the end, and then nothing is written there
      simp only [Window.remaining, Window.size] at hroom
      simp only [Bytes.splice_eq, List.length_append, List.length_take, List.length_drop]
      omega

theorem keepsShape_reserve (len : Nat) : KeepsShape (reserve len) := by
  intro w
  unfold after reserve
  by_cases hroom : w.remaining < len
  · rw [if_pos hroom]
    exact .refl w
  · rw [if_neg hroom]
    exact keepsShape_bytes (Bytes.zeros len) w

theorem keepsShape_patch (offset : Nat) (data : Bytes) : KeepsShape (patch offset data) := by
  intro w
  unfold after patch
  by_cases hroom : w.size < offset + data.length
  · rw [if_pos hroom]
    exact .refl w
  · rw [if_neg hroom]
    by_cases haccess : w.access = .read
    · rw [if_pos haccess]
      exact .refl w
    · rw [if_neg haccess]
      exact ⟨rfl, Bytes.length_splice (Nat.le_of_not_lt hroom)⟩

theorem keepsShape_text (t : String) : KeepsShape (text t) := by
  unfold text
  split
  · exact .throw _
  · exact (keepsShape_bytes _).bind fun start =>
      (keepsShape_bytes [0]).discard.bind fun _ => .pure start

theorem keepsShape_reading (reader : Reader α) : KeepsShape (reading reader) := by
  intro w
  unfold after reading
  cases reader w.bytes w.cursor <;> exact ⟨rfl, rfl⟩

/-- The calls that a region answers with its bytes and its cursor.  Moving the cursor is a reading. -/
inductive Call : {α : Type} → Writer α → Prop
  | bytes (data : Bytes) : Call (bytes data)
  | word {α : Type} [Word α] (a : α) : Call (word a)
  | text (t : String) : Call (text t)
  | reserve (len : Nat) : Call (reserve len)
  | patch (offset : Nat) (data : Bytes) : Call (patch offset data)
  | patchWord {α : Type} [Word α] (offset : Nat) (a : α) : Call (patchWord offset a)
  | reading {α : Type} (reader : Reader α) : Call (reading reader)

theorem Call.keepsShape {m : Writer α} (h : m.Call) : KeepsShape m := by
  cases h with
  | bytes data => exact keepsShape_bytes data
  | word a => exact keepsShape_bytes (Word.toBytes a)
  | text t => exact keepsShape_text t
  | reserve len => exact keepsShape_reserve len
  | patch offset data => exact keepsShape_patch offset data
  | patchWord offset a => exact keepsShape_patch offset (Word.toBytes a)
  | reading reader => exact keepsShape_reading reader

end Writer

/-! ## Where a call leaves the region -/

namespace Region

variable {r : Region} {t : FileTree} {size : Nat}

theorem run_state (r : Region) (m : Writer α) (t : FileTree) :
    (r.run m t).2 = ({ r with cursor := (m.after (r.window t)).cursor },
      r.store (m.after (r.window t)) t) := by
  unfold run Writer.after
  cases m (r.window t) <;> rfl

/-- A call changes no name, and the bytes of no file but that of the region. -/
theorem keeps_run (r : Region) (m : Writer α) (t : FileTree) :
    FileTree.Keeps [] r.file t (r.run m t).2.2 := by
  rw [run_state, store]
  split
  · exact .refl [] r.file t
  · exact FileTree.keeps_setContents t r.file _

/-- The region can be written, and its file has so many bytes and says so in its header. -/
structure Intact (size : Nat) (r : Region) (t : FileTree) : Prop where
  access_eq : r.access = .write
  file_lt : r.file < t.files.size
  contents_eq : ∃ bytes, t.contents r.file = fileOf bytes ∧ headerSize + bytes.length = size

theorem Fresh.intact {config : RegionConfig} (h : Fresh config r t) : Intact config.size r t := by
  refine ⟨h.access_eq, h.file_lt, _, h.contents_eq, ?_⟩
  rw [Bytes.length_zeros]
  exact Nat.add_sub_of_le (Nat.le_of_lt h.size_lt.1)

theorem Intact.run (h : Intact size r t) {m : Writer α} (hm : m.KeepsShape) :
    Intact size (r.run m t).2.1 (r.run m t).2.2 := by
  obtain ⟨bytes, hcontents, hsize⟩ := h.contents_eq
  have hshape := hm (r.window t)
  have hlen : (m.after (r.window t)).bytes.length = bytes.length := by
    rw [hshape.length_eq, window, hcontents, drop_fileOf]
  have hlt : r.file < (r.run m t).2.2.files.size :=
    Nat.lt_of_lt_of_le h.file_lt (keeps_run r m t).size_le
  rw [run_state] at hlt ⊢
  refine ⟨h.access_eq, hlt, (m.after (r.window t)).bytes, ?_, by rw [hlen, hsize]⟩
  rw [store, if_neg (by rw [h.access_eq]; decide), FileTree.contents_setContents h.file_lt,
    hcontents, take_fileOf, ← hlen]
  rfl

end Region

end HardwareMap
