import HardwareMap.Import.TreeIndex
import HardwareMap.Proofs.Layout.Reading

/-!
# Reading a stored tree

A region that holds the blocks of a tree is read block by block, in the order in which they were
written: the tasks that wait are the offsets of the components that are pending in the visit of the
subtree.  `Rebuilt` is what holds between two steps: the components read so far stand in a
well-formed graph under their new numbers, with what their blocks store, and the index knows their
offsets and no offset of the others.
-/

namespace HardwareMap

namespace Block

/-- The component that a block is read back as. -/
def decoded (b : Block) (r : Registry) : Component :=
  { b.member.toComponent with attributes := .ofList (r.unpackAll b.attributes.packed) }

/-- A block of a graph whose texts and payloads can be read back. -/
structure Readable (g : Graph) (r : Registry) (b : Block) : Prop where
  member_eq : g.member? b.id = some b.member
  texts_free : NulFree b.member.texts
  names_free : NulFree (b.attributes.packed.map (·.1))
  unpackable : r.Unpackable b.attributes.packed

theorem size_pos (b : Block) : 0 < b.size := by
  unfold size tableOffset Component.recordSize wordSize
  omega

/-- Blocks that are placed one after the other stand at their places. -/
theorem holds_of_placed {bytes : Bytes} {place : ComponentId → Nat} {start : Nat}
    {blocks : List Block} (hplaced : Placed place start blocks)
    (h : bytes.Holds start (storedList place start blocks)) :
    ∀ b ∈ blocks, bytes.Holds (place b.id) (b.stored place (place b.id)) := by
  induction blocks generalizing start with
  | nil => exact fun b hb => by cases hb
  | cons first rest ih =>
    obtain ⟨hfirst, hrest⟩ := hplaced
    intro b hb
    rcases List.mem_cons.1 hb with rfl | hb
    · rw [hfirst]
      exact h.left
    · have hright := h.right
      rw [length_stored] at hright
      exact ih hrest hright b hb

theorem Placed.le {place : ComponentId → Nat} {start : Nat} {blocks : List Block}
    (h : Placed place start blocks) : ∀ b ∈ blocks, start ≤ place b.id := by
  induction blocks generalizing start with
  | nil => exact fun b hb => by cases hb
  | cons first rest ih =>
    intro b hb
    rcases List.mem_cons.1 hb with rfl | hb
    · exact Nat.le_of_eq h.1.symm
    · exact Nat.le_trans (Nat.le_add_right _ _) (ih h.2 b hb)

end Block

/-- A component is read back from its block, together with the places of its children and the end of
the block. -/
theorem ReadMember.readAt_eq {g : Graph} {r : Registry} {bytes : Bytes}
    (hlen : bytes.length < UInt64.size) {b : Block} (hb : b.Readable g r) {place : ComponentId → Nat}
    (hholds : bytes.Holds (place b.id) (b.stored place (place b.id)))
    (hchildren : ∀ c ∈ b.member.children, place c < UInt64.size) (cursor : Nat) :
    ∃ cursor', readAt r (place b.id) bytes cursor =
      .ok { component := b.decoded r
            children := b.member.children.map place
            stop := place b.id + b.size } cursor' := by
  let start := place b.id
  let table := b.table start
  have hfit := hholds.le
  rw [Block.length_stored] at hfit
  have hsplit : b.stored place start = (b.member.head ++ (table.stored ++ b.member.tail)) ++
      (Attributes.storedSection b.attributes.packed ++
        ChildTable.storedOffsets (b.member.children.map place)) := by
    simp only [Block.stored, Block.storedAround, List.append_assoc, table]
  rw [hsplit] at hholds
  have hrecord : bytes.Holds start (b.member.head ++ (table.stored ++ b.member.tail)) :=
    hholds.left
  have hrest := hholds.right
  rw [b.member.toComponent.length_record (ChildTable.length_stored _)] at hrest
  have hsize : b.size = b.tableOffset + b.member.children.length * wordSize := rfl
  have hrecordRead := Component.reads_readRecord hb.texts_free table
    (by show start + b.tableOffset < UInt64.size; omega)
    (by show b.member.children.length < UInt64.size; unfold wordSize at hsize; omega)
    bytes start hlen hrecord
  rw [b.member.toComponent.length_record (ChildTable.length_stored _)] at hrecordRead
  have hattributes := Attributes.reads_read hb.names_free hb.unpackable bytes _ hlen hrest.left
  have hstop : start + b.member.toComponent.recordSize +
      (Attributes.storedSection b.attributes.packed).length = start + b.tableOffset := by
    rw [Nat.add_assoc]
    rfl
  rw [hstop] at hattributes
  have htable := ChildTable.offsets_eq hlen (b.member.children.map place)
    (fun child hchild => by
      obtain ⟨c, hc, rfl⟩ := List.mem_map.1 hchild
      exact hchildren c hc) (hstop ▸ hrest.right) (start + b.tableOffset) rfl
  rw [List.length_map] at htable
  have hseek : Reader.seek start bytes cursor = .ok () start :=
    Reader.seek_eq hlen (by omega) cursor
  have hcount : (b.member.children.map place).length = b.member.children.length := List.length_map _
  have hmul := Reader.mul_eq (m := b.member.children.length) (n := wordSize) (by omega) bytes
    (start + b.tableOffset)
  have hadd := Reader.add_eq (m := start + b.tableOffset)
    (n := b.member.children.length * wordSize) (by omega) bytes (start + b.tableOffset)
  have hend : start + b.tableOffset + b.member.children.length * wordSize = start + b.size := by
    omega
  rw [← hcount] at hmul
  refine ⟨start + b.tableOffset, ?_⟩
  refine Reader.bind_eq_ok.2 ⟨_, _, hseek, Reader.bind_eq_ok.2 ⟨_, _, hrecordRead,
    Reader.bind_eq_ok.2 ⟨_, _, hattributes, Reader.bind_eq_ok.2 ⟨_, _, rfl,
      Reader.bind_eq_ok.2 ⟨_, _, htable, Reader.bind_eq_ok.2 ⟨_, _, hmul, ?_⟩⟩⟩⟩⟩⟩
  rw [hcount]
  refine Reader.bind_eq_ok.2 ⟨_, _, hadd, ?_⟩
  rw [hend, Nat.max_eq_right (by omega)]
  rfl

namespace TreeIndex

/-- What stands at a position after one element was added behind a list. -/
theorem of_getElem?_concat {α : Type} {l : List α} {a b : α} {i : Nat}
    (h : (l ++ [a])[i]? = some b) : i < l.length ∧ l[i]? = some b ∨ i = l.length ∧ b = a := by
  rw [List.getElem?_append] at h
  by_cases hi : i < l.length
  · rw [if_pos hi] at h
    exact .inl ⟨hi, h⟩
  · rw [if_neg hi] at h
    obtain ⟨hpos, hb⟩ := List.getElem?_eq_some_iff.1 h
    have hzero : i - l.length = 0 := Nat.lt_one_iff.1 hpos
    simp only [hzero, List.getElem_cons_zero] at hb
    exact .inr ⟨by omega, hb.symm⟩

/-- A component that can be read and added is followed by its children, then by the others. -/
theorem readTasks_cons {r : Registry} {bytes : Bytes} {offset : Nat} {parent : Option ComponentId}
    {tasks : List ReadTask} {index : TreeIndex} {graph graph' : Graph} {cursor cursor' : Nat}
    {read : ReadMember} {id : ComponentId} (hnew : index.offsets.contains offset = false)
    (hread : ReadMember.readAt r offset bytes cursor = .ok read cursor')
    (hadd : graph.addComponent parent read.component = (.ok id, graph')) :
    readTasks r bytes ({ offset, parent } :: tasks) index ⟨graph, cursor⟩ =
      readTasks r bytes ((read.children.map fun offset => { offset, parent := some id }) ++ tasks)
        (index.insert offset id read.stop) ⟨graph', cursor'⟩ := by
  rw [readTasks, dif_neg (by rw [hnew]; exact Bool.false_ne_true)]
  split
  · next h =>
    rw [hread] at h
    cases h
  · next h =>
    rw [hread] at h
    cases h
    rw [hadd]

section Rebuilding

variable {g : Graph} {r : Registry} {root : ComponentId} {bytes : Bytes}
  {place : ComponentId → Nat} {full : List Block}

/-- The number of a component after reading: its position in the tree. -/
def number (full : List Block) (c : ComponentId) : ComponentId := (full.map (·.id)).idxOf c

/-- The parent of a component after reading.  The root of the tree has none. -/
def newParent (g : Graph) (root : ComponentId) (full : List Block) (c : ComponentId) :
    Option ComponentId :=
  if c = root then none else (g.parent? c).map (number full)

/-- The task of reading a component. -/
def taskOf (g : Graph) (root : ComponentId) (place : ComponentId → Nat) (full : List Block)
    (c : ComponentId) : ReadTask :=
  { offset := place c, parent := newParent g root full c }

/-- What holds after some blocks of a tree were read, the others being still unread. -/
structure Rebuilt (g : Graph) (r : Registry) (root : ComponentId) (place : ComponentId → Nat)
    (full done rest : List Block) (index : TreeIndex) (graph : Graph) : Prop where
  wellFormed : graph.WellFormed
  size_eq : graph.size = done.length
  content?_eq : ∀ i b, done[i]? = some b → graph.content? i = some (b.decoded r)
  parent?_eq : ∀ i b, done[i]? = some b → graph.parent? i = newParent g root full b.id
  paths_eq : graph.paths = #[]
  get?_eq : ∀ b ∈ done, index.offsets.get? (place b.id) = some (number full b.id)
  fresh : ∀ b ∈ rest, index.offsets.contains (place b.id) = false

theorem rebuilt_empty (g : Graph) (r : Registry) (root : ComponentId)
    (place : ComponentId → Nat) (full : List Block) :
    Rebuilt g r root place full [] full {} .empty where
  wellFormed := .empty
  size_eq := rfl
  content?_eq i b h := by cases h
  parent?_eq i b h := by cases h
  paths_eq := rfl
  get?_eq b h := by cases h
  fresh b h := rfl

theorem number_eq (hnodup : (full.map (·.id)).Nodup) {done rest : List Block} {b : Block}
    (hfull : full = done ++ b :: rest) : number full b.id = done.length := by
  have hnot : b.id ∉ done.map (·.id) := by
    rw [hfull, List.map_append, List.nodup_append] at hnodup
    exact fun hmem => hnodup.2.2 _ hmem _ List.mem_cons_self rfl
  rw [number, hfull, List.map_append, List.map_cons, List.idxOf_append_of_notMem hnot,
    List.idxOf_cons_self, List.length_map, Nat.add_zero]

/-- One block more. -/
theorem Rebuilt.step {done rest : List Block} {b : Block} {index : TreeIndex} {graph graph' : Graph}
    (h : Rebuilt g r root place full done (b :: rest) index graph)
    (hplaced : ∀ b' ∈ rest, place b.id ≠ place b'.id)
    (hwf : graph'.WellFormed)
    (hadd : Graph.Added graph (newParent g root full b.id) (b.decoded r) graph') (stop : Nat) :
    Rebuilt g r root place full (done ++ [b]) rest
      (index.insert (place b.id) (number full b.id) stop) graph' where
  wellFormed := hwf
  size_eq := by
    rw [hadd.size_eq, h.size_eq, List.length_append]
    rfl
  content?_eq i b' hb' := by
    rw [hadd.content?_eq, h.size_eq]
    rcases of_getElem?_concat hb' with ⟨hi, hold⟩ | ⟨rfl, rfl⟩
    · rw [if_neg (Nat.ne_of_lt hi)]
      exact h.content?_eq i b' hold
    · rw [if_pos rfl]
  parent?_eq i b' hb' := by
    rw [hadd.parent?_eq, h.size_eq]
    rcases of_getElem?_concat hb' with ⟨hi, hold⟩ | ⟨rfl, rfl⟩
    · rw [if_neg (Nat.ne_of_lt hi)]
      exact h.parent?_eq i b' hold
    · rw [if_pos rfl]
  paths_eq := hadd.paths_eq.trans h.paths_eq
  get?_eq b' hb' := by
    rw [insert, SortedMap.get?_insert]
    rcases List.mem_append.1 hb' with hold | hnew
    · have hne : place b.id ≠ place b'.id := by
        intro heq
        have hfresh := h.fresh b List.mem_cons_self
        rw [SortedMap.contains, heq, h.get?_eq b' hold] at hfresh
        cases hfresh
      rw [if_neg hne]
      exact h.get?_eq b' hold
    · rw [List.mem_singleton.1 hnew, if_pos rfl]
  fresh b' hb' := by
    rw [insert, SortedMap.contains_insert, decide_eq_false (hplaced b' hb'), Bool.false_or]
    exact h.fresh b' (List.mem_cons_of_mem _ hb')

theorem number_lt {done rest : List Block} {b : Block} (hfull : full = done ++ rest)
    (hb : b ∈ done) : number full b.id < done.length := by
  have hmem : b.id ∈ done.map (·.id) := List.mem_map_of_mem hb
  rw [number, hfull, List.map_append, List.idxOf_append_of_mem hmem]
  have hlt := List.idxOf_lt_length_of_mem hmem
  rwa [List.length_map] at hlt

/-- A component whose turn may come: the root, or one whose parent was read. -/
def Awaited (g : Graph) (root : ComponentId) (done : List Block) (c : ComponentId) : Prop :=
  c = root ∨ ∃ p ∈ done, g.parent? c = some p.id

/-- After a component was read, its children are awaited too. -/
theorem awaited_step (hforest : g.Forest) {done : List Block} {b : Block}
    {pending : List ComponentId} (h : ∀ c ∈ pending, Awaited g root done c) :
    ∀ c ∈ g.children b.id ++ pending, Awaited g root (done ++ [b]) c := by
  intro c hc
  rcases List.mem_append.1 hc with hchild | hother
  · exact .inr ⟨b, List.mem_append_right _ List.mem_cons_self, hforest.mem_children.1 hchild⟩
  · rcases h c hother with hroot | ⟨p, hp, hparent⟩
    · exact .inl hroot
    · exact .inr ⟨p, List.mem_append_left _ hp, hparent⟩

/-- The parent of an awaited component was read before. -/
theorem newParent_lt {done rest : List Block} (hfull : full = done ++ rest) {c : ComponentId}
    (hc : Awaited g root done c) {n : Nat}
    (hn : newParent g root full c = some n) : n < done.length := by
  by_cases hroot : c = root
  · rw [newParent, if_pos hroot] at hn
    cases hn
  · obtain ⟨p, hp, hparent⟩ := hc.resolve_left hroot
    rw [newParent, if_neg hroot, hparent] at hn
    cases hn
    exact number_lt hfull hp

/-- The children of a component are waiting at their places, below its new number. -/
theorem map_taskOf_children (hforest : g.Forest) {c : ComponentId} (hroot : root ≤ c) :
    (g.children c).map (taskOf g root place full) =
      ((g.children c).map place).map fun offset =>
        { offset, parent := some (number full c) } := by
  rw [List.map_map]
  refine List.map_congr_left fun d hd => ?_
  have hne : d ≠ root :=
    Nat.ne_of_gt (Nat.lt_of_le_of_lt hroot (hforest.lt_of_mem_children hd).1)
  rw [taskOf, newParent, if_neg hne, hforest.mem_children.1 hd]
  rfl

/-- The children of a block that is read next are placed inside of the bytes. -/
theorem place_lt_of_mem_children (hlen : bytes.length < UInt64.size)
    (hholds : ∀ b ∈ full, bytes.Holds (place b.id) (b.stored place (place b.id)))
    {pending : List ComponentId} {rest : List Block}
    (hv : Graph.Visits g pending (rest.map (·.id))) (hrest : ∀ b ∈ rest, b ∈ full)
    {c : ComponentId} (hc : c ∈ rest.map (·.id)) : ∀ d ∈ g.children c, place d < UInt64.size := by
  intro d hd
  have hin := (hv.children_sublist hc).subset hd
  obtain ⟨b, hb, rfl⟩ := List.mem_map.1 hin
  have hle := (hholds b (hrest b hb)).le
  omega

/-- Reading the blocks of pending components, and of all below them, rebuilds these. -/
theorem readTasks_rebuilds (hforest : g.Forest) (hlen : bytes.length < UInt64.size)
    (hholds : ∀ b ∈ full, bytes.Holds (place b.id) (b.stored place (place b.id)))
    (hreadable : ∀ b ∈ full, b.Readable g r) (hnodup : (full.map (·.id)).Nodup)
    (hroot : ∀ b ∈ full, root ≤ b.id) {pending order : List ComponentId}
    (hv : Graph.Visits g pending order) {done rest : List Block} (hrest : rest.map (·.id) = order)
    (hfull : full = done ++ rest) {start : Nat} (hplaced : Block.Placed place start rest)
    (hpending : ∀ c ∈ pending, Awaited g root done c)
    {index : TreeIndex} {graph : Graph} (cursor : Nat)
    (h : Rebuilt g r root place full done rest index graph) (hstop : index.stop = start) :
    ∃ index' graph' cursor',
      readTasks r bytes (pending.map (taskOf g root place full)) index ⟨graph, cursor⟩ =
        .ok index' ⟨graph', cursor'⟩ ∧
      Rebuilt g r root place full full [] index' graph' ∧
      index'.stop = start + Block.sizes rest := by
  induction hv generalizing done rest start index graph cursor with
  | nil =>
    obtain rfl := List.map_eq_nil_iff.1 hrest
    rw [List.append_nil] at hfull
    subst hfull
    refine ⟨index, graph, cursor, ?_, h, hstop⟩
    rw [List.map_nil, readTasks]
  | @cons c pending order hv ih =>
    obtain ⟨b, rest, rfl, rfl, htail⟩ := List.map_eq_cons_iff.1 hrest
    obtain ⟨hstart, hplaced⟩ := hplaced
    have hmem : b ∈ full := by
      rw [hfull]
      exact List.mem_append_right _ List.mem_cons_self
    have hb := hreadable b hmem
    have hchildren : g.children b.id = b.member.children := Graph.children_eq hb.member_eq
    have hv' : Graph.Visits g (b.id :: pending) ((b :: rest).map (·.id)) := hrest ▸ .cons hv
    have hplaces := place_lt_of_mem_children hlen hholds hv'
      (fun b' hb' => hfull ▸ List.mem_append_right _ hb') List.mem_cons_self
    rw [hchildren] at hplaces
    obtain ⟨cursor', hread⟩ := ReadMember.readAt_eq hlen hb (hholds b hmem) hplaces cursor
    have hnumber := number_eq hnodup hfull
    have hdistinct : ∀ b' ∈ rest, place b.id ≠ place b'.id := fun b' hb' => by
      have hle := hplaced.le b' hb'
      have hpos := b.size_pos
      omega
    have hsplit : full = (done ++ [b]) ++ rest := by
      rw [hfull, List.append_assoc]
      rfl
    have hwf := h.wellFormed.addComponent (newParent g root full b.id) (b.decoded r)
    rcases graph.addComponent_cases (newParent g root full b.id) (b.decoded r) with
      ⟨p, hp, hle, -⟩ | ⟨graph₁, hadded, hadd, -⟩
    · have hlt := newParent_lt hfull (hpending b.id List.mem_cons_self) hp
      rw [h.size_eq] at hle
      exact absurd hlt (Nat.not_lt.2 hle)
    · rw [hadded] at hwf
      have hstep := h.step hdistinct hwf hadd (place b.id + b.size)
      have hpending' := awaited_step (b := b) hforest fun c hc =>
        hpending c (List.mem_cons_of_mem _ hc)
      have hstop' : (index.insert (place b.id) (number full b.id) (place b.id + b.size)).stop =
          start + b.size := by
        rw [insert, hstop, hstart]
        exact Nat.max_eq_right (Nat.le_add_right _ _)
      obtain ⟨index', graph', cursor₁, htasks, hrebuilt, hend⟩ :=
        ih htail hsplit hplaced hpending' cursor' hstep hstop'
      refine ⟨index', graph', cursor₁, ?_, hrebuilt, ?_⟩
      · rw [List.map_append, map_taskOf_children hforest (hroot b hmem), hchildren, hnumber,
          ← h.size_eq] at htasks
        exact (readTasks_cons (h.fresh b List.mem_cons_self) hread hadded).trans htasks
      · rw [hend, Nat.add_assoc]
        rfl

end Rebuilding

end TreeIndex

end HardwareMap
