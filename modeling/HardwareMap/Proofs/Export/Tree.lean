import HardwareMap.Proofs.Export.Blocks

/-!
# Writing a tree stores its blocks

`settles_writeMember` says what writing one component does, `settles_runTasks` what the whole work
does, by induction on the visit of the subtree: the blocks of the visited components are appended
one after the other, and every pending task has the place of its component filled in.  Until the
work is done, the slots of the pending tasks stand before the cursor, so that whatever is appended
meanwhile does not matter to them.
-/

namespace HardwareMap

namespace WriteTask

/-- Linking reserves a table of zeros and fills in what waits for it. -/
theorem settles_link {w : Window} (hw : w.Writable) {place : Component.RecordPlace}
    (hplace : place.tableSlot + ChildTable.encodedSize ≤ w.cursor) (children : Nat)
    {slot : Option Nat} (hslot : Window.Behind slot w.cursor) :
    Settles True (children * wordSize) w.remaining (link place children slot w) w.cursor
      (((w.append (Bytes.zeros (children * wordSize))).overwrite place.tableSlot
        (ChildTable.stored { offset := w.cursor, count := children })).fill slot place.start) := by
  have hreserve := Writer.appends_reserve (children * wordSize) w hw
  rw [Bytes.length_zeros] at hreserve
  refine hreserve.bind_of_ok fun hroom => ?_
  rw [← Bytes.length_zeros (children * wordSize)] at hroom
  have hw₁ := Window.writable_append hw hroom
  have hbefore := Nat.le_trans hplace
    (Nat.le_add_right w.cursor (Bytes.zeros (children * wordSize)).length)
  have hpatch := ChildTable.patch_eq hw₁ { offset := w.cursor, count := children } hbefore
  rw [← ChildTable.length_stored { offset := w.cursor, count := children }] at hbefore
  have hfill := Window.fillSlot_eq (Window.writable_overwrite hw₁ hbefore) (hslot.append _)
    place.start
  exact bind_eq_ok.2 ⟨(), _, hpatch, bind_eq_ok.2 ⟨(), _, hfill, rfl⟩⟩

end WriteTask

/-- A block is stored in three parts, and then the reference to its table. -/
theorem Window.overwrite_parts {w : Window} (hw : w.Writable) (b : Block)
    (h : b.size ≤ w.remaining) :
    (((w.append (b.member.head ++ (Bytes.zeros ChildTable.encodedSize ++ b.member.tail))).append
        (Attributes.storedSection b.attributes.packed)).append
          (Bytes.zeros (b.member.children.length * wordSize))).overwrite
            (w.cursor + (wordSize + 4)) (b.table w.cursor).stored =
      w.append (b.unfilled w.cursor) := by
  let record := b.member.head ++ (Bytes.zeros ChildTable.encodedSize ++ b.member.tail)
  let attributes := Attributes.storedSection b.attributes.packed
  let zeros := Bytes.zeros (b.member.children.length * wordSize)
  have hparts : record ++ (attributes ++ zeros) =
      b.storedAround (Bytes.zeros ChildTable.encodedSize) zeros := by
    simp only [record, attributes, Block.storedAround, List.append_assoc]
  have hfit : (record ++ (attributes ++ zeros)).length ≤ w.remaining := by
    rw [hparts, b.length_storedAround (Bytes.length_zeros _) (Bytes.length_zeros _)]
    exact h
  have hrecord : record.length ≤ w.remaining := by
    rw [List.length_append] at hfit
    exact Nat.le_trans (Nat.le_add_right _ _) hfit
  have hothers : (attributes ++ zeros).length ≤ (w.append record).remaining := by
    rw [remaining_append hw hrecord]
    rw [List.length_append] at hfit
    omega
  rw [append_append (writable_append hw hrecord) hothers, append_append hw hfit, hparts,
    ← b.member.toComponent.length_head]
  rw [hparts] at hfit
  exact overwrite_append hw (by rw [ChildTable.length_stored, Bytes.length_zeros]) hfit

/-- What is noted of a block that was written at an offset. -/
def Block.written (b : Block) (start : Nat) : WrittenMember where
  placement := { component := b.id, offset := start }
  dropped := b.attributes.dropped.map fun name => { owner := .component b.id, name }
  tasks := WriteTask.ofChildren (start + b.tableOffset) b.member.children

namespace WriteTask

/-- Writing a component appends its block, with a table of zeros, and fills in the slot that waits
for it. -/
theorem settles_writeMember (r : Registry) (id : ComponentId) {slot : Option Nat} (m : Member)
    {w : Window} (hw : w.Writable) (hslot : Window.Behind slot w.cursor) (calls : CallLog) :
    let packing := r.packAll m.attributes.entries calls
    let b : Block := { id, member := m, attributes := packing.1 }
    Settles (NulFree m.texts) b.size w.remaining (writeMember r id slot m ⟨w, calls⟩)
      (b.written w.cursor) ⟨w.appendBlock b slot, packing.2⟩ := by
  intro packing b
  let record := m.head ++ (Bytes.zeros ChildTable.encodedSize ++ m.tail)
  let attributes := Attributes.storedSection packing.1.packed
  let zeros := Bytes.zeros (m.children.length * wordSize)
  let place : Component.RecordPlace :=
    { start := w.cursor, tableSlot := w.cursor + (wordSize + 4) }
  let w₁ := w.append record
  let w₂ := w₁.append attributes
  let linked := ((w₂.append zeros).overwrite place.tableSlot
    (ChildTable.stored { offset := w₂.cursor, count := m.children.length })).fill slot w.cursor
  have hrecord : record.length = m.toComponent.recordSize :=
    m.toComponent.length_record (Bytes.length_zeros _)
  have hsize : record.length + (attributes.length + m.children.length * wordSize) = b.size := by
    rw [hrecord, ← Nat.add_assoc]
    rfl
  have hcursor : w₂.cursor = w.cursor + b.tableOffset := by
    simp only [w₂, w₁, Window.cursor_append, hrecord, Nat.add_assoc]
    rfl
  have hwrite := Packer.settles_writing (m.toComponent.appends_writeRecord w hw) calls
  have hrest : record.length ≤ w.remaining →
      Settles True (attributes.length + m.children.length * wordSize) (w.remaining - record.length)
        ((do
          let names ← m.attributes.write r
          let table ← Packer.writing (link place m.children.length slot)
          return {
            placement := { component := id, offset := place.start }
            dropped := names.map fun name => { owner := .component id, name }
            tasks := ofChildren table m.children } : Packer WrittenMember) ⟨w₁, calls⟩)
        (b.written w.cursor) ⟨linked, packing.2⟩ := fun hroom => by
    have hw₁ : w₁.Writable := Window.writable_append hw hroom
    have hroom₁ : w₁.remaining = w.remaining - record.length := Window.remaining_append hw hroom
    have hattributes := m.attributes.appends_write r calls w₁ hw₁
    rw [← hroom₁]
    refine (hattributes.bind fun _ hroom' => ?_).congr and_self_iff rfl rfl rfl
    have hw₂ : w₂.Writable := Window.writable_append hw₁ hroom'
    have hplace : place.tableSlot + ChildTable.encodedSize ≤ w₂.cursor := by
      simp only [place, w₂, w₁, Window.cursor_append, hrecord, Component.recordSize]
      omega
    have hlink := settles_link hw₂ hplace m.children.length ((hslot.append _).append _)
    rw [Window.remaining_append hw₁ hroom'] at hlink
    have hwritten := (Packer.settles_writing hlink packing.2).map fun table : Nat =>
      ({ placement := { component := id, offset := place.start }
         dropped := b.attributes.dropped.map fun name => { owner := .component id, name }
         tasks := ofChildren table m.children } : WrittenMember)
    refine hwritten.congr Iff.rfl rfl ?_ rfl
    simp only [Block.written, hcursor, place]
    rfl
  refine (hwrite.bind fun _ hroom => hrest hroom).congr_of_le (and_iff_left trivial) hsize
    (fun _ => rfl) fun hroom => ?_
  rw [hsize] at hroom
  have hparts := Window.overwrite_parts hw b hroom
  show Pass.mk linked packing.2 = _
  rw [Window.appendBlock, ← hparts]
  simp only [linked, hcursor]
  rfl

/-- The children of a block find their slots in its table, whatever was appended since. -/
theorem fillAll_block (place : ComponentId → Nat) {w : Window} (hw : w.Writable) (b : Block)
    {slot : Option Nat} (hslot : Window.Behind slot w.cursor) {data : Bytes}
    (h : b.size + data.length ≤ w.remaining) :
    fillAll place (ofChildren (w.cursor + b.tableOffset) b.member.children)
        ((w.appendBlock b slot).append data) =
      (w.append (b.stored place w.cursor ++ data)).fill slot w.cursor := by
  let front := b.member.head ++ ((b.table w.cursor).stored ++
    (b.member.tail ++ Attributes.storedSection b.attributes.packed))
  let zeros := Bytes.zeros (b.member.children.length * wordSize)
  let offsets := ChildTable.storedOffsets (b.member.children.map place)
  have hzeros : zeros.length = b.member.children.length * wordSize := Bytes.length_zeros _
  have hempty : b.unfilled w.cursor = front ++ zeros := by
    simp only [Block.unfilled, Block.storedAround, front, zeros, List.append_assoc]
  have hfilled : b.stored place w.cursor = front ++ offsets := by
    simp only [Block.stored, Block.storedAround, front, offsets, List.append_assoc]
  have hlen : (front ++ zeros).length = b.size := by
    rw [← hempty]
    exact b.length_unfilled _
  have hfront : front.length = b.tableOffset := by
    rw [List.length_append, hzeros] at hlen
    exact Nat.add_right_cancel hlen
  have hroom : (front ++ zeros).length ≤ w.remaining := by omega
  have hfit : ((front ++ zeros) ++ data).length ≤ w.remaining := by
    rw [List.length_append, hlen]
    exact h
  have hw₁ := Window.writable_append hw hroom
  have hdata : data.length ≤ (w.append (front ++ zeros)).remaining := by
    rw [Window.remaining_append hw hroom]
    omega
  rw [Window.appendBlock, hempty, Window.append_fill hw₁ (hslot.append _) _ hdata,
    Window.append_append hw hfit]
  have hw₂ := Window.writable_append hw hfit
  rw [fillAll_fill place hw₂ hslot fun task htask => ?_]
  · have htable := fillAll_ofChildren place hw b.member.children front data
      (by rw [← List.append_assoc]; exact hfit)
    rw [hfront] at htable
    rw [List.append_assoc front zeros data, htable, hfilled, List.append_assoc front offsets data]
  · obtain ⟨s, hs, hle, hlt⟩ := behind_ofChildren htask
    refine ⟨s, hs, Nat.le_trans (Nat.le_add_right _ _) hle, Nat.le_trans hlt ?_⟩
    rw [Window.cursor_append, List.length_append, hlen, Block.size]
    omega

/-- A task that is done has placed its component, and what is to be done next is writing the children. -/
theorem component_of_run {g : Graph} {r : Registry} {task : WriteTask} {pass pass' : Pass}
    {written : WrittenMember} (h : task.run g r pass = .ok written pass') :
    written.placement.component = task.component ∧
      written.tasks.map (·.component) = g.children task.component := by
  unfold run at h
  cases hm : g.member? task.component with
  | none =>
    rw [hm] at h
    cases h
  | some m =>
    rw [hm] at h
    obtain ⟨_, _, -, h⟩ := bind_eq_ok.1 h
    obtain ⟨_, _, -, h⟩ := bind_eq_ok.1 h
    obtain ⟨table, _, -, h⟩ := bind_eq_ok.1 h
    cases h
    exact ⟨rfl, by rw [Graph.children_eq hm, map_component_ofChildren]⟩

end WriteTask

/-! ## The whole tree -/

namespace TreeLayout

variable {g : Graph} (r : Registry)

theorem runTasks_cons (g : Graph) (task : WriteTask) (rest : List WriteTask) (layout : TreeLayout)
    (pass : Pass) :
    runTasks g r (task :: rest) layout pass =
      (task.run g r >>= fun written =>
        (runTasks g r (written.tasks ++ rest) (layout.add written) : Packer TreeLayout)) pass := by
  rw [runTasks]
  change _ = EStateM.bind _ _ pass
  unfold EStateM.bind
  split <;> next h => rw [h]

/-- The layout with blocks from an offset on added to it. -/
def extend (layout : TreeLayout) (start : Nat) (blocks : List Block) : TreeLayout :=
  { placements := layout.placements ++ Block.placements start blocks
    dropped := layout.dropped ++ Block.dropped blocks
    stop := start + Block.sizes blocks }

/-- Adding a block and those behind it is adding the block first. -/
theorem extend_add (layout : TreeLayout) (start : Nat) (b : Block) (rest : List Block) :
    (layout.add (b.written start)).extend (start + b.size) rest =
      layout.extend start (b :: rest) := by
  simp only [extend, add, Block.written, Block.placements, Block.dropped, Block.sizes,
    List.flatMap_cons, List.map_cons, List.sum_cons, List.append_assoc, List.singleton_append,
    Nat.add_assoc]

/-- After a block was written, the slots of its children and of all other tasks stand before the
cursor. -/
theorem behind_written {b : Block} {start : Nat} {rest : List WriteTask}
    (hrest : ∀ task ∈ rest, Window.Behind task.slot start) :
    ∀ task ∈ (b.written start).tasks ++ rest, Window.Behind task.slot (start + b.size) := by
  intro task htask
  rcases List.mem_append.1 htask with hchild | hother
  · obtain ⟨s, hs, -, hlt⟩ := WriteTask.behind_ofChildren hchild
    intro t ht
    rw [hs] at ht
    cases ht
    rw [Nat.add_assoc] at hlt
    exact hlt
  · exact (hrest task hother).mono (Nat.le_add_right _ _)

/-- Doing tasks, and whatever they lead to, appends the blocks of all components that are visited
and fills in the slots of the tasks. -/
theorem settles_runTasks (place : ComponentId → Nat) {pending order : List ComponentId}
    (hv : Graph.Visits g pending order) (hknown : ∀ c ∈ order, c < g.size)
    {tasks : List WriteTask} (htasks : tasks.map (·.component) = pending) (layout : TreeLayout)
    {w : Window} (hw : w.Writable) (calls : CallLog)
    (hplaced : Block.Placed place w.cursor (g.blocks r order calls).1)
    (hslots : ∀ task ∈ tasks, Window.Behind task.slot w.cursor) :
    let result := g.blocks r order calls
    Settles (Block.Storable result.1) (Block.sizes result.1) w.remaining
      (runTasks g r tasks layout ⟨w, calls⟩) (layout.extend w.cursor result.1)
      ⟨WriteTask.fillAll place tasks (w.append (Block.storedList place w.cursor result.1)),
        result.2⟩ := by
  induction hv generalizing tasks layout w calls with
  | nil =>
    obtain rfl := List.map_eq_nil_iff.1 htasks
    refine (Settles.of_ok ?_).congr ?_ rfl rfl rfl
    · rw [runTasks]
      simp [extend, Graph.blocks, Block.placements, Block.dropped, Block.sizes, Block.storedList,
        WriteTask.fillAll]
    · simp [Block.Storable, Graph.blocks]
  | @cons c pending order hv ih =>
    obtain ⟨task, rest, rfl, rfl, rfl⟩ := List.map_eq_cons_iff.1 htasks
    obtain ⟨m, hm⟩ := Graph.member?_of_lt (hknown _ List.mem_cons_self)
    intro result
    let packing := r.packAll m.attributes.entries calls
    let b : Block := { id := task.component, member := m, attributes := packing.1 }
    let others := g.blocks r order packing.2
    have hresult : result = (b :: others.1, others.2) := Graph.blocks_cons hm r order calls
    have hchildren : g.children task.component = m.children := Graph.children_eq hm
    rw [show g.blocks r (task.component :: order) calls = _ from hresult] at hplaced
    obtain ⟨hplace, hplaced⟩ := hplaced
    rw [hresult, runTasks_cons]
    have hslot := hslots task List.mem_cons_self
    have hhead : Settles (NulFree m.texts) b.size w.remaining (task.run g r ⟨w, calls⟩)
        (b.written w.cursor) ⟨w.appendBlock b task.slot, packing.2⟩ := by
      simp only [WriteTask.run, hm]
      exact WriteTask.settles_writeMember r task.component m hw hslot calls
    have hafter : b.size ≤ w.remaining →
        Settles (Block.Storable others.1) (Block.sizes others.1) (w.remaining - b.size)
          (runTasks g r ((b.written w.cursor).tasks ++ rest) (layout.add (b.written w.cursor))
            ⟨w.appendBlock b task.slot, packing.2⟩)
          (layout.extend w.cursor (b :: others.1))
          ⟨WriteTask.fillAll place ((b.written w.cursor).tasks ++ rest)
            ((w.appendBlock b task.slot).append
              (Block.storedList place (w.cursor + b.size) others.1)), others.2⟩ := fun hroom => by
      have hwaiting : ((b.written w.cursor).tasks ++ rest).map (·.component) =
          g.children task.component ++ rest.map (·.component) := by
        rw [List.map_append, Block.written, WriteTask.map_component_ofChildren, hchildren]
      have hbehind := behind_written (b := b) fun other hother =>
        hslots other (List.mem_cons_of_mem _ hother)
      rw [← Window.cursor_appendBlock w b task.slot] at hplaced hbehind
      have hrest := ih (fun d hd => hknown d (List.mem_cons_of_mem _ hd)) hwaiting
        (layout.add (b.written w.cursor)) (Window.writable_appendBlock hw hslot hroom) packing.2
        hplaced hbehind
      rw [Window.remaining_appendBlock hw hslot hroom, Window.cursor_appendBlock] at hrest
      exact hrest.congr Iff.rfl rfl (extend_add layout w.cursor b others.1) rfl
    refine (hhead.bind fun _ hroom => hafter hroom).congr_of_le ?_ ?_ (fun _ => rfl)
      fun hroom => ?_
    · simp [Block.Storable, b]
    · rw [Block.sizes, Block.sizes, List.map_cons, List.sum_cons]
    · have hfit : b.size + (Block.storedList place (w.cursor + b.size) others.1).length ≤
          w.remaining := by
        rw [Block.length_storedList]
        exact hroom
      have hblock := WriteTask.fillAll_block place hw b hslot hfit
      show Pass.mk _ others.2 = _
      rw [WriteTask.fillAll_append, Block.written, hblock, WriteTask.fillAll_cons, hplace]
      rfl

end TreeLayout

/-- Writing the tree under a component appends the blocks of its subtree. -/
theorem Graph.Forest.settles_writeTree {g : Graph} (h : g.Forest) (r : Registry)
    {root : ComponentId} (hroot : root < g.size) {w : Window} (hw : w.Writable)
    (calls : CallLog) :
    let result := g.blocks r (g.subtree root) calls
    let place := Block.place w.cursor result.1
    Settles (Block.Storable result.1) (Block.sizes result.1) w.remaining
      (g.writeTree r root ⟨w, calls⟩) (TreeLayout.extend {} w.cursor result.1)
      ⟨w.append (Block.storedList place w.cursor result.1), result.2⟩ := by
  intro result place
  have hv := h.visits_subtree hroot
  have hknown : ∀ c ∈ g.subtree root, c < g.size := fun _ => h.lt_size_of_mem_subtree
  have hplaced : Block.Placed place w.cursor result.1 := by
    refine Block.placed_place ?_
    rw [Block.map_id_blocks r hknown]
    exact h.nodup_subtree hroot
  refine TreeLayout.settles_runTasks r place hv hknown rfl {} hw calls hplaced fun task htask => ?_
  rw [List.mem_singleton.1 htask]
  intro s hs
  cases hs

end HardwareMap
