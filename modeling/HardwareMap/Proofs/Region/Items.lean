import HardwareMap.Proofs.Layout.Stored
import HardwareMap.Proofs.Region.Bounds

/-!
# Typed items in a region

Numbers, raw bytes and texts are written at the cursor one after another, and read back in the same
order.  An item that stands somewhere keeps standing there as long as nothing is stored in its range
(`Item.Stands.congr`); so patches and reservations may come in between, while the items are written
and while they are read, if they keep off the items that are there (`Region.items_read_back`).
-/

namespace HardwareMap

variable {ι β : Type}

/-! ## Ranges -/

namespace Bytes

/-- No byte is in both ranges, each given by its start and its length. -/
def Apart (start len start' len' : Nat) : Prop :=
  len = 0 ∨ len' = 0 ∨ start + len ≤ start' ∨ start' + len' ≤ start

instance (start len start' len' : Nat) : Decidable (Apart start len start' len') :=
  inferInstanceAs (Decidable (_ ∨ _))

/-- From one string to the other nothing has changed but in a range. -/
structure SameOutside (offset len : Nat) (bytes bytes' : Bytes) : Prop where
  length_eq : bytes'.length = bytes.length
  slice_eq : ∀ start n, Apart offset len start n → bytes'.slice start n = bytes.slice start n

theorem SameOutside.refl (offset len : Nat) (bytes : Bytes) : SameOutside offset len bytes bytes :=
  ⟨rfl, fun _ _ _ => rfl⟩

theorem getElem?_slice (bytes : Bytes) (offset len i : Nat) :
    (bytes.slice offset len)[i]? = if i < len then bytes[offset + i]? else none := by
  rw [slice, List.getElem?_take, List.getElem?_drop]

theorem sameOutside_splice {bytes data : Bytes} {offset : Nat}
    (h : offset + data.length ≤ bytes.length) :
    SameOutside offset data.length bytes (bytes.splice offset data) := by
  refine ⟨length_splice h, fun start n hapart => ?_⟩
  apply List.ext_getElem?
  intro i
  rw [getElem?_slice, getElem?_slice, getElem?_splice (by omega)]
  by_cases hi : i < n
  · have hout : start + i < offset ∨ offset + data.length ≤ start + i := by
      unfold Apart at hapart
      omega
    rw [if_pos hi, if_pos hi]
    rcases hout with hbefore | hbehind
    · rw [if_pos hbefore]
    · rw [if_neg (by omega), if_neg (by omega)]
  · rw [if_neg hi, if_neg hi]

theorem holds_slice {bytes : Bytes} {offset len : Nat} (h : offset + len ≤ bytes.length) :
    bytes.Holds offset (bytes.slice offset len) := by
  refine ⟨bytes.take offset, bytes.drop (offset + len), ?_, List.length_take_of_le (by omega)⟩
  rw [slice, ← List.drop_drop, List.take_append_drop, List.take_append_drop]

end Bytes

/-! ## Items -/

/-- The types of the numbers that are written and read at the cursor. -/
inductive NumberType where
  | u64
  | u32
  | i32
  | i64
  | f64
  | u8

@[reducible] def NumberType.Value : NumberType → Type
  | u64 => UInt64
  | u32 => UInt32
  | i32 => Int32
  | i64 => Int64
  | f64 => Binary64
  | u8 => UInt8

instance (type : NumberType) : Word type.Value :=
  match type with
  | .u64 => inferInstanceAs (Word UInt64)
  | .u32 => inferInstanceAs (Word UInt32)
  | .i32 => inferInstanceAs (Word Int32)
  | .i64 => inferInstanceAs (Word Int64)
  | .f64 => inferInstanceAs (Word Binary64)
  | .u8 => inferInstanceAs (Word UInt8)

/-- What one call writes at the cursor. -/
inductive Item where
  | number (type : NumberType) (value : type.Value)
  | bytes (data : Bytes)
  | text (t : String)
  /-- Room that is reserved, whatever is put there later. -/
  | slot (len : Nat)

/-- What has to be known of an item to read it. -/
inductive ItemType where
  | number (type : NumberType)
  | bytes (len : Nat)
  | text
  | slot (len : Nat)

namespace Item

def type : Item → ItemType
  | number type _ => .number type
  | bytes data => .bytes data.length
  | text _ => .text
  | slot len => .slot len

/-- Bytes that the item takes in a region. -/
def size : Item → Nat
  | number type _ => Word.width type.Value
  | bytes data => data.length
  | text t => Utf8.storedSize t
  | slot len => len

def texts : Item → List String
  | text t => [t]
  | _ => []

def isSlot : Item → Bool
  | slot _ => true
  | _ => false

def write : Item → Writer Nat
  | number _ value => Writer.word value
  | bytes data => Writer.bytes data
  | text t => Writer.text t
  | slot len => Writer.reserve len

end Item

/-- Reads an item at the cursor.  A slot is passed over, whatever is in it. -/
def ItemType.read : ItemType → Reader Item
  | number type => return .number type (← Reader.word type.Value)
  | bytes len => return .bytes (← Reader.bytes len)
  | text => return .text (← Reader.text)
  | slot len => do
    discard (Reader.bytes len)
    return .slot len

def ItemType.call (type : ItemType) : Writer Item := Writer.reading type.read

namespace Item

def stored : Item → Bytes
  | number _ value => Word.toBytes value
  | bytes data => data
  | text t => Utf8.stored t
  | slot len => Bytes.zeros len

@[simp] theorem length_stored (i : Item) : i.stored.length = i.size := by
  cases i with
  | number type value => exact Word.length_toBytes value
  | bytes data => rfl
  | text t => exact Utf8.length_stored t
  | slot len => exact Bytes.length_zeros len

theorem appends_write (i : Item) : Appends i.write (NulFree i.texts) i.stored id := by
  have none : True ↔ NulFree [] := by simp [NulFree]
  cases i with
  | number type value => exact (Writer.appends_word value).congr none rfl fun _ => rfl
  | bytes data => exact (Writer.appends_bytes data).congr none rfl fun _ => rfl
  | text t => exact (Writer.appends_text t).congr (by simp [NulFree, texts]) rfl fun _ => rfl
  | slot len => exact (Writer.appends_reserve len).congr none rfl fun _ => rfl

theorem reads_read {i : Item} (hslot : i.isSlot = false) (hfree : NulFree i.texts) :
    Reads i.type.read i.stored i := by
  cases i with
  | number type value => exact (Reader.reads_word value).map _
  | bytes data => exact (Reader.reads_bytes data).map _
  | text t => exact (Reader.reads_text (hfree t List.mem_cons_self)).map _
  | slot len => cases hslot

/-- The bytes of the item are at an offset; of a slot, as many as it takes. -/
structure Stands (bytes : Bytes) (offset : Nat) (i : Item) : Prop where
  le : offset + i.size ≤ bytes.length
  slice_eq : i.isSlot = false → bytes.slice offset i.size = i.stored

namespace Stands

variable {bytes bytes' : Bytes} {offset start len : Nat} {i : Item}

/-- What is stored elsewhere does no harm. -/
theorem congr (h : Stands bytes offset i) (hsame : Bytes.SameOutside start len bytes bytes')
    (hapart : i.isSlot = false → Bytes.Apart start len offset i.size) : Stands bytes' offset i where
  le := by
    rw [hsame.length_eq]
    exact h.le
  slice_eq hslot := (hsame.slice_eq offset i.size (hapart hslot)).trans (h.slice_eq hslot)

/-- An item that stands at the cursor is read there, which leaves the cursor behind it. -/
theorem read_eq (h : Stands bytes offset i) (hlen : bytes.length < UInt64.size)
    (hfree : NulFree i.texts) : i.type.read bytes offset = .ok i (offset + i.size) := by
  cases hslot : i.isSlot with
  | false =>
    have hholds := Bytes.holds_slice h.le
    rw [h.slice_eq hslot] at hholds
    have hread := reads_read hslot hfree bytes offset hlen hholds
    rwa [length_stored] at hread
  | true =>
    cases i with
    | slot len =>
      have hpassed : (Reader.bytes len >>= fun _ => Pure.pure ()) bytes offset =
          .ok () (offset + len) :=
        Reader.bind_eq_ok.2 ⟨_, _, Reader.bytes_eq hlen h.le, rfl⟩
      exact Reader.bind_eq_ok.2 ⟨(), _, hpassed, rfl⟩
    | number _ _ | bytes _ | text _ => cases hslot

end Stands

/-- Where items are that are written one behind another. -/
def placed (start : Nat) : List Item → List (Nat × Item)
  | [] => []
  | i :: rest => (start, i) :: placed (start + i.size) rest

end Item

/-! ## Calls in between -/

/-- Goes on whether a call succeeds or fails. -/
def Writer.attempt (m : Writer β) : Writer Unit := fun w => .ok () (m.after w)

/-- A call that is made between those that write or read items. -/
inductive Aside where
  /-- Overwrites bytes. -/
  | patch (offset : Nat) (data : Bytes)
  /-- Reserves room at another place, and moves the cursor back. -/
  | reserve (offset len : Nat)

namespace Aside

def offset : Aside → Nat
  | patch offset _ | reserve offset _ => offset

def len : Aside → Nat
  | patch _ data => data.length
  | reserve _ len => len

/-- The call stores nothing in the range of an item that is at an offset.  In a slot it may. -/
def KeepsOff (a : Aside) (x : Nat × Item) : Prop :=
  x.2.isSlot = false → Bytes.Apart a.offset a.len x.1 x.2.size

instance (a : Aside) (x : Nat × Item) : Decidable (a.KeepsOff x) :=
  inferInstanceAs (Decidable (_ → _))

def perform : Aside → Writer Unit
  | patch offset data => Writer.attempt (Writer.patch offset data)
  | reserve offset len => do
    let start ← Writer.position
    Writer.attempt do
      Writer.reading (Reader.seek offset)
      Writer.reserve len
    Writer.reading (Reader.seek start)

end Aside

/-- Makes a call for each element of a list, and other calls in between. -/
def Writer.interleaved (m : ι → Writer β) : List (ι ⊕ Aside) → Writer (List β)
  | [] => return []
  | .inl a :: rest => do
    let b ← m a
    let others ← interleaved m rest
    return b :: others
  | .inr aside :: rest => do
    aside.perform
    interleaved m rest

/-- While items are written from an offset on, the calls in between keep off those that were written
until then, which come after others that are there already. -/
def Item.KeptOff (there : List (Nat × Item)) (start : Nat) : List (Item ⊕ Aside) → Prop
  | [] => True
  | .inl i :: rest => KeptOff (there ++ [(start, i)]) (start + i.size) rest
  | .inr aside :: rest => (∀ x ∈ there, aside.KeepsOff x) ∧ KeptOff there start rest

/-! ### What they leave -/

/-- Moving the cursor stores nothing. -/
theorem Writer.reading_seek_eq_ite {w : Window} (hlen : w.bytes.length < UInt64.size)
    (offset : Nat) :
    Writer.reading (Reader.seek offset) w =
      if offset ≤ w.bytes.length then .ok () { w with cursor := offset }
      else .error (.malformed offset (.pastEnd 0 w.bytes.length)) w := by
  rw [Writer.reading, Reader.seek_eq_ite hlen]
  by_cases hle : offset ≤ w.bytes.length
  · simp only [if_pos hle]
  · simp only [if_neg hle]

section Calls

variable {w : Window} (hw : w.Writable)

include hw

theorem Writer.after_patch (offset : Nat) (data : Bytes) :
    ∃ bytes, (Writer.patch offset data).after w = { w with bytes } ∧
      Bytes.SameOutside offset data.length w.bytes bytes := by
  unfold Writer.after Writer.patch
  by_cases hle : offset + data.length ≤ w.bytes.length
  · rw [if_neg (Nat.not_lt.2 (show offset + data.length ≤ w.size from hle)),
      if_neg (by rw [hw.access_eq]; decide)]
    exact ⟨_, rfl, Bytes.sameOutside_splice hle⟩
  · rw [if_pos (Nat.lt_of_not_le (show ¬ offset + data.length ≤ w.size from hle))]
    exact ⟨w.bytes, rfl, .refl _ _ _⟩

theorem Writer.after_reserve (len : Nat) :
    ∃ bytes cursor, (Writer.reserve len).after w = { w with bytes, cursor } ∧
      Bytes.SameOutside w.cursor len w.bytes bytes := by
  have hwrite := Writer.appends_reserve len w hw
  rw [Bytes.length_zeros] at hwrite
  unfold Writer.after
  by_cases hle : len ≤ w.remaining
  · rw [hwrite.ok trivial hle]
    refine ⟨_, _, rfl, ?_⟩
    have hfit : w.cursor + (Bytes.zeros len).length ≤ w.bytes.length := by
      rw [Bytes.length_zeros]
      exact Window.le_length_of_le_remaining hw hle
    have hsame := Bytes.sameOutside_splice hfit
    rwa [Bytes.length_zeros] at hsame
  · rw [Writer.reserve, if_pos (Nat.lt_of_not_le hle)]
    exact ⟨w.bytes, w.cursor, rfl, .refl _ _ _⟩

variable (hlen : w.bytes.length < UInt64.size)

include hlen

/-- Room is reserved at another place only if that is inside of the region. -/
theorem Writer.after_seek_reserve (offset len : Nat) :
    ∃ bytes cursor,
      (do Writer.reading (Reader.seek offset); Writer.reserve len : Writer Nat).after w =
        { w with bytes, cursor } ∧ Bytes.SameOutside offset len w.bytes bytes := by
  have hseek := Writer.reading_seek_eq_ite hlen offset
  by_cases hle : offset ≤ w.bytes.length
  · rw [if_pos hle] at hseek
    have hmoved : { w with cursor := offset }.Writable := ⟨hw.access_eq, hle⟩
    obtain ⟨bytes, cursor, hafter, hsame⟩ := Writer.after_reserve hmoved len
    refine ⟨bytes, cursor, ?_, hsame⟩
    rw [← hafter, Writer.after, bind_of_ok hseek, Writer.after]
  · rw [if_neg hle] at hseek
    refine ⟨w.bytes, w.cursor, ?_, .refl _ _ _⟩
    rw [Writer.after, bind_of_error hseek]

/-- A call in between changes nothing but its range, and leaves the cursor where it was. -/
theorem Aside.perform_eq (a : Aside) :
    ∃ bytes, a.perform w = .ok () { w with bytes } ∧
      Bytes.SameOutside a.offset a.len w.bytes bytes := by
  cases a with
  | patch offset data =>
    obtain ⟨bytes, hafter, hsame⟩ := Writer.after_patch hw offset data
    exact ⟨bytes, congrArg (EStateM.Result.ok ()) hafter, hsame⟩
  | reserve offset len =>
    obtain ⟨bytes, cursor, hafter, hsame⟩ := Writer.after_seek_reserve hw hlen offset len
    refine ⟨bytes, ?_, hsame⟩
    have hback : Writer.reading (Reader.seek w.cursor) { w with bytes, cursor } =
        .ok () { w with bytes } := by
      rw [Writer.reading_seek_eq_ite (by rw [hsame.length_eq]; exact hlen),
        if_pos (by rw [hsame.length_eq]; exact hw.cursor_le)]
    have hattempt : Writer.attempt (do Writer.reading (Reader.seek offset); Writer.reserve len) w =
        .ok () { w with bytes, cursor } := congrArg (EStateM.Result.ok ()) hafter
    exact bind_eq_ok.2 ⟨w.cursor, w, rfl, bind_eq_ok.2 ⟨(), _, hattempt, hback⟩⟩

end Calls

/-! ## Writing and reading in order -/

namespace Item

variable {w w' : Window}

theorem nulFree_cons {i : Item} {items : List Item} :
    NulFree ((i :: items).flatMap texts) ↔ NulFree i.texts ∧ NulFree (items.flatMap texts) := by
  rw [List.flatMap_cons]
  exact List.forall_mem_append

/-- Calls have passed over a number of bytes, and the items in the list stand before the cursor. -/
structure Written (there : List (Nat × Item)) (n : Nat) (w w' : Window) : Prop where
  shape : w.SameShape w'
  cursor_eq : w'.cursor = w.cursor + n
  cursor_le : w'.cursor ≤ w'.bytes.length
  stands : ∀ x ∈ there, x.2.Stands w'.bytes x.1
  before : ∀ x ∈ there, x.1 + x.2.size ≤ w'.cursor

namespace Written

variable {there there' : List (Nat × Item)} {n n' : Nat} {w'' : Window}

theorem start (hw : w.Writable) : Written [] 0 w w where
  shape := .refl w
  cursor_eq := rfl
  cursor_le := hw.cursor_le
  stands := by simp
  before := by simp

theorem writable (h : Written there n w w') (hw : w.Writable) : w'.Writable :=
  ⟨h.shape.access_eq.trans hw.access_eq, h.cursor_le⟩

theorem length_lt (h : Written there n w w') (hlen : w.bytes.length < UInt64.size) :
    w'.bytes.length < UInt64.size := by
  rw [h.shape.length_eq]
  exact hlen

theorem remaining_eq (h : Written there n w w') : w'.remaining = w.remaining - n := by
  rw [Window.remaining, Window.size, h.shape.length_eq, h.cursor_eq, Window.remaining, Window.size,
    Nat.sub_sub]

theorem trans (h : Written there n w w') (h' : Written there' n' w' w'') :
    Written there' (n + n') w w'' where
  shape := h.shape.trans h'.shape
  cursor_eq := by rw [h'.cursor_eq, h.cursor_eq, Nat.add_assoc]
  cursor_le := h'.cursor_le
  stands := h'.stands
  before := h'.before

/-- An item is written at the cursor, behind those that are there. -/
theorem write (h : Written there n w w') (hw : w.Writable) {i : Item} (hfree : NulFree i.texts)
    (hroom : i.size ≤ w'.remaining) :
    ∃ w'', i.write w' = .ok w'.cursor w'' ∧ Written (there ++ [(w'.cursor, i)]) i.size w' w'' := by
  have hw' := h.writable hw
  have hstored : i.stored.length ≤ w'.remaining := by rwa [length_stored]
  have hle := Window.le_length_of_le_remaining hw' hstored
  have hcursor : (w'.append i.stored).cursor = w'.cursor + i.size := by
    rw [Window.cursor_append, length_stored]
  have hnew : i.Stands (w'.append i.stored).bytes w'.cursor := by
    have hholds := Window.holds_append hw' i.stored
    have hend := hholds.le
    have hslice := hholds.slice_eq
    rw [length_stored] at hend hslice
    exact ⟨hend, fun _ => hslice⟩
  refine ⟨w'.append i.stored, (i.appends_write w' hw').ok hfree hstored, ⟨rfl, ?_⟩, hcursor, ?_, ?_,
    ?_⟩
  · exact Window.length_append hw' hstored
  · exact (Window.writable_append hw' hstored).cursor_le
  · refine List.forall_mem_append.2 ⟨fun x hx => ?_, List.forall_mem_singleton.2 hnew⟩
    have hbefore := h.before x hx
    exact (h.stands x hx).congr (Bytes.sameOutside_splice hle) fun _ => .inr (.inr (.inr hbefore))
  · rw [hcursor]
    refine List.forall_mem_append.2 ⟨fun x hx => ?_, List.forall_mem_singleton.2 (Nat.le_refl _)⟩
    exact Nat.le_trans (h.before x hx) (Nat.le_add_right _ _)

/-- A call in between that keeps off the items that are there leaves them as they are. -/
theorem aside (h : Written there n w w') (hw : w.Writable) (hlen : w.bytes.length < UInt64.size)
    {a : Aside} (hoff : ∀ x ∈ there, a.KeepsOff x) :
    ∃ bytes, a.perform w' = .ok () { w' with bytes } ∧ Written there 0 w' { w' with bytes } := by
  obtain ⟨bytes, hperform, hsame⟩ := a.perform_eq (h.writable hw) (h.length_lt hlen)
  refine ⟨bytes, hperform, ⟨rfl, hsame.length_eq⟩, rfl, ?_, ?_, h.before⟩
  · rw [hsame.length_eq]
    exact h.cursor_le
  · exact fun x hx => (h.stands x hx).congr hsame (hoff x hx)

/-- Items are written one behind another.  The induction is on the calls, each of which starts at a
window where the items before it stand. -/
theorem interleaved (calls : List (Item ⊕ Aside)) (h : Written there n w w') (hw : w.Writable)
    (hlen : w.bytes.length < UInt64.size) (hkept : KeptOff there w'.cursor calls) :
    let items := calls.filterMap Sum.getLeft?
    NulFree (items.flatMap texts) → (items.map size).sum ≤ w'.remaining →
      ∃ w'', Writer.interleaved Item.write calls w' =
          .ok ((Item.placed w'.cursor items).map (·.1)) w'' ∧
        Written (there ++ Item.placed w'.cursor items) (items.map size).sum w' w'' := by
  induction calls generalizing n w' there with
  | nil =>
    intro items _ _
    refine ⟨w', rfl, .refl w', rfl, h.cursor_le, ?_, ?_⟩
    · simpa [items, Item.placed] using h.stands
    · simpa [items, Item.placed] using h.before
  | cons call rest ih =>
    cases call with
    | inl i =>
      intro items hfree hroom
      obtain ⟨hi, hothers⟩ := nulFree_cons.1 hfree
      have hroom' : i.size + ((rest.filterMap Sum.getLeft?).map size).sum ≤ w'.remaining := hroom
      obtain ⟨w₁, hwrite, hfirst⟩ := h.write hw hi (by omega)
      obtain ⟨w'', hrest, hlater⟩ := ih (h.trans hfirst) (by rw [hfirst.cursor_eq]; exact hkept)
        hothers (by rw [hfirst.remaining_eq]; omega)
      have hwritten := hfirst.trans hlater
      rw [hfirst.cursor_eq] at hrest hwritten
      rw [List.append_assoc] at hwritten
      exact ⟨w'', bind_eq_ok.2 ⟨_, _, hwrite, bind_eq_ok.2 ⟨_, _, hrest, rfl⟩⟩, hwritten⟩
    | inr a =>
      intro items hfree hroom
      obtain ⟨bytes, hperform, hfirst⟩ := h.aside hw hlen hkept.1
      obtain ⟨w'', hrest, hlater⟩ := ih (h.trans hfirst) hkept.2 hfree
        (by rw [hfirst.remaining_eq]; exact hroom)
      have hwritten := hfirst.trans hlater
      rw [Nat.zero_add] at hwritten
      exact ⟨w'', bind_eq_ok.2 ⟨(), _, hperform, hrest⟩, hwritten⟩

end Written

/-- Items that stand one behind another are read in their order.  The induction is on the calls, and
carries that what is not read yet still stands. -/
theorem interleaved_read_eq (reads : List (ItemType ⊕ Aside)) {items : List Item} (hw : w.Writable)
    (hlen : w.bytes.length < UInt64.size)
    (hplaced : ∀ x ∈ placed w.cursor items, x.2.Stands w.bytes x.1)
    (htypes : reads.filterMap Sum.getLeft? = items.map type)
    (hoff : ∀ a, .inr a ∈ reads → ∀ x ∈ placed w.cursor items, a.KeepsOff x)
    (hfree : NulFree (items.flatMap texts)) :
    ∃ bytes, Writer.interleaved ItemType.call reads w =
      .ok items { w with bytes, cursor := w.cursor + (items.map size).sum } := by
  induction reads generalizing w items with
  | nil =>
    obtain rfl : items = [] := List.map_eq_nil_iff.1 htypes.symm
    exact ⟨w.bytes, rfl⟩
  | cons read rest ih =>
    cases read with
    | inl type =>
      cases items with
      | nil => cases htypes
      | cons i others =>
        obtain ⟨rfl, htypes'⟩ := List.cons.inj htypes
        obtain ⟨hi, hothers⟩ := nulFree_cons.1 hfree
        have hstands : i.Stands w.bytes w.cursor := hplaced _ (.head _)
        have hread : i.type.call w = .ok i { w with cursor := w.cursor + i.size } := by
          rw [ItemType.call, Writer.reading, hstands.read_eq hlen hi]
        obtain ⟨bytes, hrest⟩ := ih (w := { w with cursor := w.cursor + i.size })
          ⟨hw.access_eq, hstands.le⟩ hlen (fun x hx => hplaced x (.tail _ hx)) htypes'
          (fun a ha x hx => hoff a (.tail _ ha) x (.tail _ hx)) hothers
        refine ⟨bytes, bind_eq_ok.2 ⟨i, _, hread, bind_eq_ok.2 ⟨others, _, hrest, ?_⟩⟩⟩
        rw [List.map_cons, List.sum_cons, ← Nat.add_assoc]
        rfl
    | inr aside =>
      obtain ⟨bytes, hperform, hsame⟩ := aside.perform_eq hw hlen
      obtain ⟨bytes', hrest⟩ := ih (w := { w with bytes })
        ⟨hw.access_eq, by rw [hsame.length_eq]; exact hw.cursor_le⟩
        (by rw [hsame.length_eq]; exact hlen)
        (fun x hx => (hplaced x hx).congr hsame (hoff aside (.head _) x hx))
        htypes (fun a ha => hoff a (.tail _ ha)) hfree
      exact ⟨bytes', bind_eq_ok.2 ⟨(), _, hperform, hrest⟩⟩

end Item

namespace Region

theorem run_of_ok {r : Region} {t : FileTree} {m : Writer β} {b : β} {w : Window}
    (h : m (r.window t) = .ok b w) :
    r.run m t = (.ok b, { r with cursor := w.cursor }, r.store w t) := by
  rw [run, h]

/-- **Items are read back**: take a region that can be written, opened or created, whatever was done to
it since, and items without a zero byte in a text that fit in behind the cursor.  One written after the
other they all go in, each call answers with the sum of what the items before it take, and the cursor is
left behind the last one.  Back at the start, reading items of these types in this order gives the same
items again, and leaves the cursor where it was.

In between, bytes may be overwritten and room may be reserved anywhere but in the items that are there
by then, and a slot among these may be filled in.  Whether such a call succeeds or fails, it changes
nothing of this. -/
theorem items_read_back {r : Region} {t : FileTree} (h : r.Sound t) (hwrite : r.access = .write)
    (calls : List (Item ⊕ Aside)) (hkept : Item.KeptOff [] r.cursor calls) :
    let items := calls.filterMap Sum.getLeft?
    let placed := Item.placed r.cursor items
    let behind : Region := { r with cursor := r.cursor + (items.map Item.size).sum }
    NulFree (items.flatMap Item.texts) → (items.map Item.size).sum ≤ r.remaining →
      ∃ t', r.run (Writer.interleaved Item.write calls) t = (.ok (placed.map (·.1)), behind, t') ∧
        ∀ reads : List (ItemType ⊕ Aside), reads.filterMap Sum.getLeft? = items.map Item.type →
          (∀ a, .inr a ∈ reads → ∀ x ∈ placed, a.KeepsOff x) →
          ∃ t'', behind.run (do
              Writer.reading (Reader.seek r.cursor)
              Writer.interleaved ItemType.call reads) t' =
            (.ok items, behind, t'') := by
  intro items placed behind hfree hroom
  let w := r.window t
  have hw : w.Writable := ⟨hwrite, h.cursor_window⟩
  have hroom' : (items.map Item.size).sum ≤ w.remaining := by
    rw [Window.remaining, Window.size, h.length_window]
    exact hroom
  have hstart : Item.Written [] 0 w w := .start hw
  obtain ⟨w', hrun, hwritten⟩ := hstart.interleaved calls hw h.length_window_lt hkept hfree hroom'
  have hbehind : { r with cursor := w'.cursor } = behind :=
    congrArg (fun cursor => ({ r with cursor } : Region)) hwritten.cursor_eq
  have hstore : behind.window (r.store w' t) = w' := by
    rw [← hbehind]
    exact h.window_store hwritten.shape fun hread => by
      rw [hwrite] at hread
      cases hread
  refine ⟨r.store w' t, ?_, fun reads htypes hoff => ?_⟩
  · rw [run_of_ok hrun, hbehind]
    rfl
  · have hlen := hwritten.length_lt h.length_window_lt
    have hle : r.cursor ≤ w'.bytes.length := by
      rw [hwritten.shape.length_eq]
      exact h.cursor_window
    have hseek := Writer.reading_seek_eq_ite hlen r.cursor
    rw [if_pos hle] at hseek
    obtain ⟨bytes, hread⟩ := Item.interleaved_read_eq reads (w := { w' with cursor := r.cursor })
      ⟨hwritten.shape.access_eq.trans hwrite, hle⟩ hlen hwritten.stands htypes hoff hfree
    have hback : (do Writer.reading (Reader.seek r.cursor); Writer.interleaved ItemType.call reads)
        (behind.window (r.store w' t)) = .ok items { w' with bytes, cursor := behind.cursor } := by
      rw [hstore]
      exact bind_eq_ok.2 ⟨(), _, hseek, hread⟩
    exact ⟨_, run_of_ok hback⟩

/-- A number, text, room for a word and another number fill a region.  The word is filled in before the
second number is written, and what stands there is read back. -/
theorem items_read_back_slot :
    ∃ r t t', create { path := "region", size := 31 } {} = (.ok r, t) ∧
      r.run (Writer.interleaved Item.write
        [.inl (.number .u64 7), .inl (.text "L2"), .inl (.slot 8),
          .inr (.patch 11 (Word.toBytes (42 : UInt64))), .inl (.number .i32 (-3))]) t =
        (.ok [0, 8, 11, 19], { r with cursor := 23 }, t') ∧
      ∃ t'', run { r with cursor := 23 } (do
          Writer.reading (Reader.seek 0)
          Writer.interleaved ItemType.call
            [.inl (.number .u64), .inr (.reserve 11 8), .inl .text, .inl (.slot 8),
              .inl (.number .i32)]) t' =
        (.ok [.number .u64 7, .text "L2", .slot 8, .number .i32 (-3)], { r with cursor := 23 }, t'') := by
  obtain ⟨r, t, hcreate⟩ : ∃ r t,
      create { path := "region", size := 31 } {} = (.ok r, t) := ⟨_, _, rfl⟩
  have hsound := sound_of_create hcreate
  cases hcreate
  obtain ⟨t', hrun, hread⟩ := items_read_back hsound rfl
    [.inl (.number .u64 7), .inl (.text "L2"), .inl (.slot 8),
      .inr (.patch 11 (Word.toBytes (42 : UInt64))), .inl (.number .i32 (-3))]
    ⟨by decide, trivial⟩ (by decide) (by decide)
  refine ⟨_, _, t', rfl, hrun, hread
    [.inl (.number .u64), .inr (.reserve 11 8), .inl .text, .inl (.slot 8), .inl (.number .i32)] rfl
    fun a ha => ?_⟩
  obtain rfl : a = .reserve 11 8 := by simpa using ha
  decide

end Region

end HardwareMap
