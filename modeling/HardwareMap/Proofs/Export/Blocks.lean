import HardwareMap.Export.TreeLayout
import HardwareMap.Proofs.Layout.Stored
import HardwareMap.Proofs.Topology.Subtree

/-!
# The stored form of a tree

A tree is stored as one block per component, in the order of its subtree: the record, the section of
attributes and the table of the children's offsets.  The length of a block does not depend on where
anything is placed (`Block.length_stored`), so the places are sums of the lengths before
(`Block.Placed`) and the bytes of the tree can be written down before any of them is written.

The writer gets there in another order: it writes a block whose table is still zero, and each child
fills in its own word later (`WriteTask.fillAll_ofChildren`).
-/

namespace HardwareMap

/-- A component as it is stored: with its links in the graph, and its attributes after packing. -/
structure Block where
  id : ComponentId
  member : Member
  attributes : PackedAttributes

/-- The blocks of components in turn, counting the calls made on encoders. -/
def Graph.blocks (g : Graph) (r : Registry) : List ComponentId → CallLog → List Block × CallLog
  | [], calls => ([], calls)
  | id :: rest, calls =>
    match g.member? id with
    | none => g.blocks r rest calls
    | some member =>
      let (attributes, calls) := r.packAll member.attributes.entries calls
      let (others, calls) := g.blocks r rest calls
      ({ id, member, attributes } :: others, calls)

theorem Graph.blocks_cons {g : Graph} {id : ComponentId} {member : Member}
    (h : g.member? id = some member) (r : Registry) (rest : List ComponentId) (calls : CallLog) :
    let first := r.packAll member.attributes.entries calls
    let others := g.blocks r rest first.2
    g.blocks r (id :: rest) calls =
      ({ id, member, attributes := first.1 } :: others.1, others.2) := by
  simp only [blocks, h]

/-- The stored form of a table of offsets. -/
def ChildTable.storedOffsets (offsets : List Nat) : Bytes := offsets.flatMap Writer.countBytes

theorem ChildTable.storedOffsets_cons (offset : Nat) (rest : List Nat) :
    storedOffsets (offset :: rest) = Writer.countBytes offset ++ storedOffsets rest :=
  List.flatMap_cons

theorem ChildTable.length_storedOffsets (offsets : List Nat) :
    (storedOffsets offsets).length = offsets.length * wordSize := by
  induction offsets with
  | nil => rfl
  | cons offset rest ih =>
    rw [storedOffsets_cons, List.length_append, ih, Writer.length_countBytes, List.length_cons,
      Nat.succ_mul, Nat.add_comm]

/-- The place of a component, if it has one. -/
def Placement.offsetOf? (placements : List Placement) (c : ComponentId) : Option Nat :=
  (placements.find? fun p => p.component == c).map (·.offset)

namespace Block

/-- Bytes of a block before its child table. -/
def tableOffset (b : Block) : Nat :=
  b.member.toComponent.recordSize + (Attributes.storedSection b.attributes.packed).length

/-- Bytes of a block. -/
def size (b : Block) : Nat := b.tableOffset + b.member.children.length * wordSize

/-- The reference to the child table of a block that starts at an offset. -/
def table (b : Block) (start : Nat) : ChildTable :=
  { offset := start + b.tableOffset, count := b.member.children.length }

/-- The bytes of a block around its reference to a child table and the table itself. -/
def storedAround (b : Block) (reference offsets : Bytes) : Bytes :=
  b.member.head ++
    (reference ++ (b.member.tail ++ (Attributes.storedSection b.attributes.packed ++ offsets)))

/-- The stored form of a block that starts at an offset, its children being placed elsewhere. -/
def stored (b : Block) (place : ComponentId → Nat) (start : Nat) : Bytes :=
  b.storedAround (b.table start).stored
    (ChildTable.storedOffsets (b.member.children.map place))

theorem length_storedAround (b : Block) {reference offsets : Bytes}
    (hreference : reference.length = ChildTable.encodedSize)
    (hoffsets : offsets.length = b.member.children.length * wordSize) :
    (b.storedAround reference offsets).length = b.size := by
  have hrecord := b.member.toComponent.length_record hreference
  simp only [storedAround, size, tableOffset, ← hrecord, List.length_append, hoffsets]
  omega

theorem length_stored (b : Block) (place : ComponentId → Nat) (start : Nat) :
    (b.stored place start).length = b.size :=
  b.length_storedAround (ChildTable.length_stored _)
    (by rw [ChildTable.length_storedOffsets, List.length_map])

/-- The stored form of a block that starts at an offset, as long as no child is placed. -/
def unfilled (b : Block) (start : Nat) : Bytes :=
  b.storedAround (b.table start).stored (Bytes.zeros (b.member.children.length * wordSize))

theorem length_unfilled (b : Block) (start : Nat) : (b.unfilled start).length = b.size :=
  b.length_storedAround (ChildTable.length_stored _) (Bytes.length_zeros _)

/-- Bytes of blocks one after the other. -/
def sizes (blocks : List Block) : Nat := (blocks.map size).sum

/-- The stored form of blocks from an offset on. -/
def storedList (place : ComponentId → Nat) : Nat → List Block → Bytes
  | _, [] => []
  | start, b :: rest => b.stored place start ++ storedList place (start + b.size) rest

theorem length_storedList (place : ComponentId → Nat) (start : Nat) (blocks : List Block) :
    (storedList place start blocks).length = sizes blocks := by
  induction blocks generalizing start with
  | nil => rfl
  | cons b rest ih =>
    rw [storedList, List.length_append, length_stored, ih, sizes, sizes, List.map_cons,
      List.sum_cons]

/-- Where the components of blocks from an offset on are placed. -/
def placements : Nat → List Block → List Placement
  | _, [] => []
  | start, b :: rest => { component := b.id, offset := start } :: placements (start + b.size) rest

/-- The attributes that blocks leave out. -/
def dropped (blocks : List Block) : List DroppedAttribute :=
  blocks.flatMap fun b =>
    b.attributes.dropped.map fun name => { owner := .component b.id, name }

/-- The places of components are those of their blocks from an offset on. -/
def Placed (place : ComponentId → Nat) : Nat → List Block → Prop
  | _, [] => True
  | start, b :: rest => place b.id = start ∧ Placed place (start + b.size) rest

/-- Where a component stands among blocks from an offset on. -/
def place (start : Nat) (blocks : List Block) (c : ComponentId) : Nat :=
  (Placement.offsetOf? (placements start blocks) c).getD 0

/-- Every text that the records of blocks hold can be stored. -/
def Storable (blocks : List Block) : Prop := ∀ b ∈ blocks, NulFree b.member.texts

end Block

namespace Block

theorem map_id_blocks {g : Graph} (r : Registry) {order : List ComponentId}
    (hknown : ∀ c ∈ order, c < g.size) (calls : CallLog) :
    (g.blocks r order calls).1.map (·.id) = order := by
  induction order generalizing calls with
  | nil => rfl
  | cons c rest ih =>
    obtain ⟨m, hm⟩ := Graph.member?_of_lt (hknown c List.mem_cons_self)
    rw [Graph.blocks_cons hm, List.map_cons, ih fun d hd => hknown d (List.mem_cons_of_mem _ hd)]

/-- There is a block for every component, in the same order. -/
theorem map_entry_blocks (g : Graph) (r : Registry) (order : List ComponentId) (calls : CallLog) :
    (g.blocks r order calls).1.map (fun b => (b.id, b.member)) =
      order.filterMap fun c => (g.member? c).map (c, ·) := by
  induction order generalizing calls with
  | nil => rfl
  | cons c rest ih =>
    cases hm : g.member? c with
    | none =>
      simp only [Graph.blocks, hm]
      rw [ih, List.filterMap_cons_none (by rw [hm]; rfl)]
    | some m =>
      rw [Graph.blocks_cons hm, List.map_cons, ih, List.filterMap_cons_some (by rw [hm]; rfl)]

/-- A block belongs to one of the components, with its attributes packed after some earlier calls. -/
theorem exists_packAll_of_mem {g : Graph} {r : Registry} {order : List ComponentId}
    {calls : CallLog} {b : Block} (hb : b ∈ (g.blocks r order calls).1) :
    b.id ∈ order ∧ g.member? b.id = some b.member ∧
      ∃ earlier, b.attributes = (r.packAll b.member.attributes.entries earlier).1 := by
  induction order generalizing calls with
  | nil => cases hb
  | cons c rest ih =>
    cases hm : g.member? c with
    | none =>
      simp only [Graph.blocks, hm] at hb
      obtain ⟨hmem, hfound⟩ := ih hb
      exact ⟨List.mem_cons_of_mem _ hmem, hfound⟩
    | some m =>
      rw [Graph.blocks_cons hm] at hb
      rcases List.mem_cons.1 hb with rfl | hb
      · exact ⟨List.mem_cons_self, hm, calls, rfl⟩
      · obtain ⟨hmem, hfound⟩ := ih hb
        exact ⟨List.mem_cons_of_mem _ hmem, hfound⟩

theorem map_component_placements (start : Nat) (blocks : List Block) :
    (placements start blocks).map (·.component) = blocks.map (·.id) := by
  induction blocks generalizing start with
  | nil => rfl
  | cons b rest ih => rw [placements, List.map_cons, List.map_cons, ih]

theorem place_cons (start : Nat) (b : Block) (rest : List Block) (c : ComponentId) :
    place start (b :: rest) c = if b.id = c then start else place (start + b.size) rest c := by
  rw [place, placements, Placement.offsetOf?]
  by_cases h : b.id = c
  · rw [if_pos h, List.find?_cons_of_pos (by simp [h])]
    rfl
  · rw [if_neg h, List.find?_cons_of_neg (by simp [h])]
    rfl

theorem Placed.congr {place place' : ComponentId → Nat} {start : Nat} {blocks : List Block}
    (h : Placed place start blocks) (heq : ∀ b ∈ blocks, place' b.id = place b.id) :
    Placed place' start blocks := by
  induction blocks generalizing start with
  | nil => trivial
  | cons b rest ih =>
    exact ⟨(heq b List.mem_cons_self).trans h.1,
      ih h.2 fun b' hb' => heq b' (List.mem_cons_of_mem _ hb')⟩

theorem sizes_append (blocks rest : List Block) :
    sizes (blocks ++ rest) = sizes blocks + sizes rest := by
  rw [sizes, List.map_append, List.sum_append, sizes, sizes]

theorem storedList_append (place : ComponentId → Nat) (start : Nat) (blocks rest : List Block) :
    storedList place start (blocks ++ rest) =
      storedList place start blocks ++ storedList place (start + sizes blocks) rest := by
  induction blocks generalizing start with
  | nil => rfl
  | cons b others ih =>
    rw [List.cons_append, storedList, ih, storedList, List.append_assoc, sizes, sizes,
      List.map_cons, List.sum_cons, Nat.add_assoc]

theorem placed_append {place : ComponentId → Nat} {start : Nat} {blocks rest : List Block} :
    Placed place start (blocks ++ rest) ↔
      Placed place start blocks ∧ Placed place (start + sizes blocks) rest := by
  induction blocks generalizing start with
  | nil => exact ⟨fun h => ⟨trivial, h⟩, And.right⟩
  | cons b others ih =>
    rw [List.cons_append, Placed, ih, Placed, and_assoc, sizes, sizes, List.map_cons,
      List.sum_cons, Nat.add_assoc]

/-- Blocks of different components are placed one after the other. -/
theorem placed_place {start : Nat} {blocks : List Block} (h : (blocks.map (·.id)).Nodup) :
    Placed (place start blocks) start blocks := by
  induction blocks generalizing start with
  | nil => trivial
  | cons b rest ih =>
    rw [List.map_cons, List.nodup_cons] at h
    refine ⟨by rw [place_cons, if_pos rfl], (ih h.2).congr fun b' hb' => ?_⟩
    have hne : b.id ≠ b'.id := fun heq => h.1 (List.mem_map.2 ⟨b', hb', heq.symm⟩)
    rw [place_cons, if_neg hne]

end Block

/-! ## Filling in what waits for a place -/

namespace Window

/-- The window after an offset was filled in at a slot, if there is one. -/
def fill (w : Window) (slot : Option Nat) (offset : Nat) : Window :=
  match slot with
  | none => w
  | some slot => w.overwrite slot (Writer.countBytes offset)

@[simp] theorem cursor_fill (w : Window) (slot : Option Nat) (offset : Nat) :
    (w.fill slot offset).cursor = w.cursor := by
  cases slot <;> rfl

/-- A slot whose word stands before an offset. -/
def Behind (slot : Option Nat) (offset : Nat) : Prop :=
  ∀ s, slot = some s → s + wordSize ≤ offset

variable {w : Window} {slot : Option Nat} (hw : w.Writable) (hslot : Behind slot w.cursor)

theorem Behind.mono {m n : Nat} (h : Behind slot m) (hmn : m ≤ n) : Behind slot n :=
  fun s hs => Nat.le_trans (h s hs) hmn

include hw hslot

theorem writable_fill (offset : Nat) : (w.fill slot offset).Writable := by
  cases slot with
  | none => exact hw
  | some s =>
    exact writable_overwrite hw (by rw [Writer.length_countBytes]; exact hslot s rfl)

theorem remaining_fill (offset : Nat) : (w.fill slot offset).remaining = w.remaining := by
  cases slot with
  | none => rfl
  | some s =>
    exact remaining_overwrite hw (by rw [Writer.length_countBytes]; exact hslot s rfl)

theorem append_fill (offset : Nat) {data : Bytes} (h : data.length ≤ w.remaining) :
    (w.fill slot offset).append data = (w.append data).fill slot offset := by
  cases slot with
  | none => rfl
  | some s =>
    exact append_overwrite hw (by rw [Writer.length_countBytes]; exact hslot s rfl) h

theorem fillSlot_eq (offset : Nat) :
    WriteTask.fillSlot slot offset w = .ok () (w.fill slot offset) := by
  cases slot with
  | none => rfl
  | some s =>
    exact Writer.patch_eq hw _ (by
      rw [Word.length_toBytes]
      exact hslot s rfl)

omit hw hslot

/-- The window after a block was written for whose place a slot waits. -/
def appendBlock (w : Window) (b : Block) (slot : Option Nat) : Window :=
  (w.append (b.unfilled w.cursor)).fill slot w.cursor

@[simp] theorem cursor_appendBlock (w : Window) (b : Block) (slot : Option Nat) :
    (w.appendBlock b slot).cursor = w.cursor + b.size := by
  rw [appendBlock, cursor_fill, cursor_append, Block.length_unfilled]

theorem Behind.append (h : Behind slot w.cursor) (data : Bytes) :
    Behind slot (w.append data).cursor :=
  h.mono (Nat.le_add_right _ _)

variable {b : Block}

include hw hslot

theorem writable_appendBlock (h : b.size ≤ w.remaining) : (w.appendBlock b slot).Writable := by
  rw [← b.length_unfilled w.cursor] at h
  exact writable_fill (writable_append hw h) (hslot.append _) _

theorem remaining_appendBlock (h : b.size ≤ w.remaining) :
    (w.appendBlock b slot).remaining = w.remaining - b.size := by
  rw [← b.length_unfilled w.cursor] at h
  rw [appendBlock, remaining_fill (writable_append hw h) (hslot.append _), remaining_append hw h,
    Block.length_unfilled]

end Window

namespace WriteTask

/-- The window after each task had the place of its component filled in. -/
def fillAll (place : ComponentId → Nat) (tasks : List WriteTask) (w : Window) : Window :=
  tasks.foldl (fun w task => w.fill task.slot (place task.component)) w

theorem fillAll_cons (place : ComponentId → Nat) (task : WriteTask) (rest : List WriteTask)
    (w : Window) :
    fillAll place (task :: rest) w = fillAll place rest (w.fill task.slot (place task.component)) :=
  rfl

theorem fillAll_append (place : ComponentId → Nat) (tasks rest : List WriteTask) (w : Window) :
    fillAll place (tasks ++ rest) w = fillAll place rest (fillAll place tasks w) :=
  List.foldl_append

theorem ofChildren_cons (table : Nat) (c : ComponentId) (rest : List ComponentId) :
    ofChildren table (c :: rest) =
      { component := c, slot := some table } :: ofChildren (table + wordSize) rest := by
  simp only [ofChildren, List.zipIdx_cons, List.map_cons, Nat.zero_mul, Nat.add_zero,
    List.zipIdx_succ, List.map_map, List.cons.injEq, true_and]
  refine List.map_congr_left fun pair _ => ?_
  simp only [Function.comp, Nat.succ_mul, Nat.add_assoc, Nat.add_comm wordSize]

theorem map_component_ofChildren (table : Nat) (children : List ComponentId) :
    (ofChildren table children).map (·.component) = children := by
  induction children generalizing table with
  | nil => rfl
  | cons c rest ih => rw [ofChildren_cons, List.map_cons, ih]

theorem behind_ofChildren {table : Nat} {children : List ComponentId} {task : WriteTask}
    (h : task ∈ ofChildren table children) :
    ∃ s, task.slot = some s ∧ table ≤ s ∧ s + wordSize ≤ table + children.length * wordSize := by
  induction children generalizing table with
  | nil => cases h
  | cons c rest ih =>
    rw [ofChildren_cons] at h
    rw [List.length_cons, Nat.succ_mul]
    rcases List.mem_cons.1 h with rfl | hmem
    · exact ⟨table, rfl, Nat.le_refl _, by omega⟩
    · obtain ⟨s, hs, hle, hlt⟩ := ih hmem
      exact ⟨s, hs, by omega, by omega⟩

/-- Filling in the places of all children turns a table of zeros into the table of the places. -/
theorem fillAll_ofChildren (place : ComponentId → Nat) {w : Window} (hw : w.Writable)
    (children : List ComponentId) (x z : Bytes)
    (h : (x ++ (Bytes.zeros (children.length * wordSize) ++ z)).length ≤ w.remaining) :
    fillAll place (ofChildren (w.cursor + x.length) children)
        (w.append (x ++ (Bytes.zeros (children.length * wordSize) ++ z))) =
      w.append (x ++ (ChildTable.storedOffsets (children.map place) ++ z)) := by
  induction children generalizing x with
  | nil => rfl
  | cons c rest ih =>
    have hzeros : Bytes.zeros ((c :: rest).length * wordSize) =
        Bytes.zeros wordSize ++ Bytes.zeros (rest.length * wordSize) := by
      rw [Bytes.zeros, Bytes.zeros, Bytes.zeros, ← List.replicate_add, List.length_cons,
        Nat.succ_mul, Nat.add_comm]
    have hword : (Writer.countBytes (place c)).length = (Bytes.zeros wordSize).length := by
      rw [Writer.length_countBytes, Bytes.length_zeros]
    rw [hzeros, List.append_assoc] at h ⊢
    rw [ofChildren_cons, fillAll_cons, Window.fill, Window.overwrite_append hw hword h]
    have hnext := ih (x ++ Writer.countBytes (place c)) (by
      simp only [List.length_append, hword] at h ⊢
      omega)
    simp only [List.append_assoc, List.length_append, Writer.length_countBytes,
      ← Nat.add_assoc] at hnext
    rw [hnext, List.map_cons, ChildTable.storedOffsets_cons, List.append_assoc]

/-- Slots before an offset and slots from it on can be filled in either order. -/
theorem fillAll_fill (place : ComponentId → Nat) {w : Window} (hw : w.Writable)
    {slot : Option Nat} {offset border : Nat} (hslot : Window.Behind slot border)
    {tasks : List WriteTask}
    (htasks : ∀ task ∈ tasks, ∃ s, task.slot = some s ∧ border ≤ s ∧ s + wordSize ≤ w.cursor) :
    fillAll place tasks (w.fill slot offset) = (fillAll place tasks w).fill slot offset := by
  induction tasks generalizing w with
  | nil => rfl
  | cons task rest ih =>
    obtain ⟨s, hs, hborder, hcursor⟩ := htasks task List.mem_cons_self
    have hbehind : Window.Behind task.slot w.cursor := fun t ht => by
      rw [hs] at ht
      cases ht
      exact hcursor
    have hcomm : (w.fill slot offset).fill task.slot (place task.component) =
        (w.fill task.slot (place task.component)).fill slot offset := by
      cases slot with
      | none => rfl
      | some t =>
        have ht := hslot t rfl
        rw [hs]
        refine Window.overwrite_comm hw ?_ ?_
        · rw [Writer.length_countBytes]
          exact Nat.le_trans ht hborder
        · rw [Writer.length_countBytes]
          exact hcursor
    rw [fillAll_cons, hcomm, fillAll_cons]
    refine ih (Window.writable_fill hw hbehind _) fun other hother => ?_
    rw [Window.cursor_fill]
    exact htasks other (List.mem_cons_of_mem _ hother)

end WriteTask

end HardwareMap
