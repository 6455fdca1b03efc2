import HardwareMap.Proofs.Attribute.Rules
import HardwareMap.Proofs.Export.Sizing
import HardwareMap.Proofs.Import.Paths

/-!
# The restriction of a graph to a subtree

`Graph.restrict` is what is left of a graph when only the subtree under a component is kept and the
paths inside of it, everything being numbered anew.  A graph in which the blocks of the tree and
those of the paths were read is well formed, and a well-formed graph is determined by its contents,
parents and paths: so it is the restriction (`TreeIndex.Rebuilt.eq_restrict`).

Nothing of this depends on which attributes are left of an owner: `Graph.restrictBy` leaves this open,
and what was read is the restriction by the attributes that were read
(`TreeIndex.Rebuilt.eq_restrictBy`).
-/

namespace HardwareMap

/-- A component with new numbers: `order` are the components that are kept, `kept` the paths. -/
def Member.restrict (m : Member) (r : Registry) (parent : Option ComponentId)
    (order : List ComponentId) (kept : List PathId) : Member where
  id := m.id
  name := m.name
  details := m.details
  attributes := m.attributes.restored r
  parent := parent.map order.idxOf
  children := m.children.map order.idxOf
  outgoing := m.outgoing.filterMap kept.idxOf?
  incoming := m.incoming.filterMap kept.idxOf?

/-- A path between components with new numbers. -/
def DataPath.restrict (p : DataPath) (r : Registry) (order : List ComponentId) : DataPath :=
  { p with
    source := order.idxOf p.source
    target := order.idxOf p.target
    attributes := p.attributes.restored r }

/-- The subtree under a component with the paths inside of it, numbered anew in their order.  Of the
attributes those are left that have a rule. -/
def Graph.restrict (g : Graph) (r : Registry) (root : ComponentId) : Graph :=
  let order := g.subtree root
  let inner := g.innerPaths order
  { members := (order.filterMap fun c => (g.member? c).map fun m =>
      m.restrict r (if c = root then none else m.parent) order (inner.map (·.1))).toArray
    roots := [0]
    paths := (inner.map fun entry => some (entry.2.restrict r order)).toArray
    livePaths := inner.length }

/-! ### With any attributes -/

/-- A component with new numbers and other attributes. -/
def Member.renumber (m : Member) (attributes : Attributes) (parent : Option ComponentId)
    (order : List ComponentId) (kept : List PathId) : Member :=
  { m with
    attributes
    parent := parent.map order.idxOf
    children := m.children.map order.idxOf
    outgoing := m.outgoing.filterMap kept.idxOf?
    incoming := m.incoming.filterMap kept.idxOf? }

/-- A path between components with new numbers, with other attributes. -/
def DataPath.renumber (p : DataPath) (attributes : Attributes) (order : List ComponentId) :
    DataPath :=
  { p with source := order.idxOf p.source, target := order.idxOf p.target, attributes }

/-- The subtree under a component with the paths inside of it, numbered anew in their order.  Of the
attributes of every owner those are left that are kept of them. -/
def Graph.restrictBy (g : Graph) (kept : AttributeOwner → Attributes → Attributes)
    (root : ComponentId) : Graph :=
  let order := g.subtree root
  let inner := g.innerPaths order
  { members := (order.filterMap fun c => (g.member? c).map fun m =>
      m.renumber (kept (.component c) m.attributes) (if c = root then none else m.parent) order
        (inner.map (·.1))).toArray
    roots := [0]
    paths := (inner.map fun entry =>
      some (entry.2.renumber (kept (.dataPath entry.1) entry.2.attributes) order)).toArray
    livePaths := inner.length }

theorem Graph.restrict_eq_restrictBy (g : Graph) (r : Registry) (root : ComponentId) :
    g.restrict r root = g.restrictBy (fun _ a => a.restored r) root :=
  rfl

/-! ## New numbers -/

/-- A list in ascending order is determined by how often it mentions what. -/
theorem eq_of_count {l l' : List Nat} (h : l.Pairwise (· ≤ ·)) (h' : l'.Pairwise (· ≤ ·))
    (hcount : ∀ n, l.count n = l'.count n) : l = l' :=
  List.Perm.eq_of_pairwise (fun _ _ _ _ hab hba => Nat.le_antisymm hab hba) h h'
    (List.perm_iff_count.2 hcount)

/-- Positions of a part of a list ascend. -/
theorem idxOf_ascending {l part : List Nat} (hnodup : l.Nodup) (hpart : part.Sublist l) :
    (part.map l.idxOf).Pairwise (· < ·) := by
  have hall : l.Pairwise fun a b => l.idxOf a < l.idxOf b := by
    refine List.pairwise_iff_getElem.2 fun i j hi hj hij => ?_
    rwa [hnodup.idxOf_getElem i hi, hnodup.idxOf_getElem j hj]
  exact List.pairwise_map.2 (hall.sublist hpart)

theorem idxOf?_eq_some_of_nodup {l : List Nat} (hnodup : l.Nodup) {a i : Nat} :
    l.idxOf? a = some i ↔ l[i]? = some a := by
  rw [List.idxOf?_eq_some_iff, List.getElem?_eq_some_iff]
  refine exists_congr fun hi => ⟨And.left, fun ha => ⟨ha, fun j hj hja => ?_⟩⟩
  have hij : j = i := (List.getElem_inj hnodup).1 (hja.trans ha.symm)
  exact Nat.ne_of_lt hj hij

/-- Each entry that is kept is mentioned under its new number as often as before. -/
theorem count_renumbered {kept : List Nat} (hnodup : kept.Nodup) (ids : List Nat) (i : Nat) :
    (ids.filterMap kept.idxOf?).count i =
      match kept[i]? with
      | some id => ids.count id
      | none => 0 := by
  have hposition : (fun a => kept.idxOf? a == some i) = fun a => kept[i]? == some a := by
    funext a
    rw [Bool.eq_iff_iff, beq_iff_eq, beq_iff_eq, idxOf?_eq_some_of_nodup hnodup]
  rw [List.count_filterMap, hposition]
  cases kept[i]? with
  | none => exact congrFun List.countP_false ids
  | some id =>
    refine List.countP_congr fun a _ => ?_
    rw [beq_iff_eq, beq_iff_eq, Option.some_inj]
    exact eq_comm

theorem renumbered_ascending {kept : List Nat} (hkept : kept.Pairwise (· < ·)) {ids : List Nat}
    (hids : ids.Pairwise (· ≤ ·)) : (ids.filterMap kept.idxOf?).Pairwise (· ≤ ·) := by
  have hnodup : kept.Nodup := hkept.imp Nat.ne_of_lt
  refine List.Pairwise.filterMap _ (fun a b hab i ha j hb => ?_) hids
  obtain ⟨hi, rfl⟩ := List.getElem?_eq_some_iff.1 ((idxOf?_eq_some_of_nodup hnodup).1 ha)
  obtain ⟨hj, rfl⟩ := List.getElem?_eq_some_iff.1 ((idxOf?_eq_some_of_nodup hnodup).1 hb)
  rw [← Nat.not_lt]
  intro hji
  exact absurd hab (Nat.not_le.2 (List.pairwise_iff_getElem.1 hkept j i hj hi hji))

/-! ## The graph that was read -/

namespace TreeIndex.Rebuilt

variable {g : Graph} {r : Registry} {root : ComponentId} {place : ComponentId → Nat}
  {order : List ComponentId} {full : List Block} {index : TreeIndex} {graph : Graph}

theorem getElem?_idxOf (hids : full.map (·.id) = order) {c : ComponentId} (hc : c ∈ order) :
    ∃ b, full[order.idxOf c]? = some b ∧ b.id = c := by
  have hlt := List.idxOf_lt_length_of_mem hc
  have hget : order[order.idxOf c]? = some c := by
    rw [List.getElem?_eq_getElem hlt, List.getElem_idxOf]
  rw [← hids, List.getElem?_map, hids] at hget
  exact Option.map_eq_some_iff.1 hget

theorem id_mem (hids : full.map (·.id) = order) {i : Nat} {b : Block} (hb : full[i]? = some b) :
    b.id ∈ order := by
  rw [← hids]
  exact List.mem_map_of_mem (List.mem_of_getElem? hb)

theorem idxOf_id (hids : full.map (·.id) = order) (hnodup : order.Nodup) {i : Nat} {b : Block}
    (hb : full[i]? = some b) : order.idxOf b.id = i := by
  have hget : order[i]? = some b.id := by
    rw [← hids, List.getElem?_map, hb]
    rfl
  obtain ⟨hi, hid⟩ := List.getElem?_eq_some_iff.1 hget
  rw [← hid]
  exact hnodup.idxOf_getElem i hi

section Tree

variable (hforest : g.Forest) (hv : Graph.Visits g [root] order) (hids : full.map (·.id) = order)
  (h : Rebuilt g r root place full full [] index graph)

include hforest hv hids h

/-- The component that was read as number `i` has the parent that it had, unless it is the root. -/
theorem parent?_eq_some {i p : ComponentId} {b : Block} (hb : full[i]? = some b) :
    graph.parent? i = some p ↔
      b.id ≠ root ∧ ∃ q ∈ order, g.parent? b.id = some q ∧ order.idxOf q = p := by
  rw [h.parent?_eq i b hb, newParent]
  by_cases hroot : b.id = root
  · rw [if_pos hroot]
    exact ⟨fun hnone => (by cases hnone), fun hne => absurd hroot hne.1⟩
  · obtain ⟨q, hq, hparent⟩ := ((hforest.mem_visits_iff hv _).1 (id_mem hids hb)).resolve_left hroot
    rw [if_neg hroot, hparent, Option.map_some, Option.some_inj, number, hids]
    constructor
    · intro hp
      exact ⟨hroot, q, hq, rfl, hp⟩
    · rintro ⟨-, q', -, hq', hp⟩
      rw [Option.some.inj hq']
      exact hp

theorem mem_children {i d : ComponentId} {b : Block} (hb : full[i]? = some b) :
    d ∈ graph.children i ↔ d ∈ (g.children b.id).map order.idxOf := by
  have hnodup := hforest.nodup_of_visits hv
  have hmem := id_mem hids hb
  rw [h.wellFormed.mem_children, List.mem_map]
  constructor
  · intro hparent
    have hlt := Graph.lt_of_parent? hparent
    rw [h.size_eq] at hlt
    have hd : full[d]? = some full[d] := List.getElem?_eq_getElem hlt
    obtain ⟨-, p, hp, hold, hnumber⟩ := (h.parent?_eq_some hforest hv hids hd).1 hparent
    rw [← idxOf_id hids hnodup hb] at hnumber
    obtain rfl : p = b.id := (List.idxOf_inj hp).1 hnumber
    exact ⟨full[d].id, hforest.mem_children.2 hold, idxOf_id hids hnodup hd⟩
  · rintro ⟨c, hc, rfl⟩
    obtain ⟨b', hb', rfl⟩ := getElem?_idxOf hids ((hv.children_sublist hmem).subset hc)
    have hle : root ≤ b.id := hforest.le_of_mem_visits hv hmem
    have hne : b'.id ≠ root :=
      Nat.ne_of_gt (Nat.lt_of_le_of_lt hle (hforest.lt_of_mem_children hc).1)
    exact (h.parent?_eq_some hforest hv hids hb').2
      ⟨hne, b.id, hmem, hforest.mem_children.1 hc, idxOf_id hids hnodup hb⟩

theorem children_eq {i : ComponentId} {b : Block} (hb : full[i]? = some b) :
    graph.children i = (g.children b.id).map order.idxOf :=
  eq_of_ascending id (h.wellFormed.children_ascending i)
    (idxOf_ascending (hforest.nodup_of_visits hv) (hv.children_sublist (id_mem hids hb)))
    fun _ => h.mem_children hforest hv hids hb

theorem roots_eq : graph.roots = [0] := by
  have hnodup := hforest.nodup_of_visits hv
  have hfirst : order.idxOf root = 0 := by
    cases hv
    exact List.idxOf_cons_self
  refine eq_of_ascending id h.wellFormed.roots_ascending (List.pairwise_singleton _ _) fun c => ?_
  rw [h.wellFormed.mem_roots, h.size_eq, List.mem_singleton]
  constructor
  · rintro ⟨hlt, hnone⟩
    have hc : full[c]? = some full[c] := List.getElem?_eq_getElem hlt
    have hroot : full[c].id = root := by
      by_contra hne
      obtain ⟨p, hp, hold⟩ :=
        ((hforest.mem_visits_iff hv _).1 (id_mem hids hc)).resolve_left hne
      have hsome := (h.parent?_eq_some hforest hv hids hc).2 ⟨hne, p, hp, hold, rfl⟩
      rw [hnone] at hsome
      cases hsome
    rw [← idxOf_id hids hnodup hc, hroot, hfirst]
  · rintro rfl
    obtain ⟨b, hb, hid⟩ := getElem?_idxOf hids
      ((hforest.mem_visits_iff hv root).2 (.inl rfl))
    rw [hfirst] at hb
    refine ⟨(List.getElem?_eq_some_iff.1 hb).1, ?_⟩
    rw [h.parent?_eq 0 b hb, newParent, if_pos hid]

end Tree

end TreeIndex.Rebuilt

/-! ### With its paths -/

theorem Attributes.ofList_unpackAll {r : Registry} (h : r.custom.Pure) (a : Attributes) :
    .ofList (r.unpackAll (r.packed a.entries).packed) = a.restored r := by
  rw [restored, ← Registry.unpackAll_packAll h a.entries ∅]
  rfl

/-- A path joins the new numbers of the ends of another one, as this joins them. -/
structure DataPath.Renumbers (order : List ComponentId) (p q : DataPath) : Prop where
  source_eq : q.source = order.idxOf p.source
  target_eq : q.target = order.idxOf p.target
  orientation_eq : q.orientation = p.orientation

namespace DataPath

variable {order : List ComponentId} {p q : DataPath} {c : ComponentId}

theorem renumbers_renumber (p : DataPath) (attributes : Attributes) (order : List ComponentId) :
    Renumbers order p (p.renumber attributes order) := ⟨rfl, rfl, rfl⟩

theorem Renumbers.outgoingAt_eq (h : Renumbers order p q) (hsource : p.source ∈ order)
    (htarget : p.target ∈ order) : q.outgoingAt (order.idxOf c) = p.outgoingAt c := by
  simp only [outgoingAt, h.source_eq, h.target_eq, h.orientation_eq, List.idxOf_inj hsource,
    List.idxOf_inj htarget]

theorem Renumbers.incomingAt_eq (h : Renumbers order p q) (hsource : p.source ∈ order)
    (htarget : p.target ∈ order) : q.incomingAt (order.idxOf c) = p.incomingAt c := by
  simp only [incomingAt, h.source_eq, h.target_eq, h.orientation_eq, List.idxOf_inj hsource,
    List.idxOf_inj htarget]

end DataPath

section Paths

variable {g graph : Graph} {order : List ComponentId} {renumbered : PathId × DataPath → DataPath}
  (hpaths : graph.paths.toList = (g.innerPaths order).map fun entry => some (renumbered entry))

include hpaths

theorem Graph.path?_of_inner (id : PathId) :
    graph.path? id = ((g.innerPaths order)[id]?).map renumbered := by
  rw [path?, ← Array.getElem?_toList, hpaths, List.getElem?_map]
  cases (g.innerPaths order)[id]? <;> rfl

variable (hrenumbers : ∀ entry ∈ g.innerPaths order,
  DataPath.Renumbers order entry.2 (renumbered entry))

include hrenumbers

/-- The paths that leave a component are those that left it, as far as they are kept. -/
theorem Graph.Registered.outgoing_eq_filterMap (hreg : g.Registered) (h : graph.Registered)
    (c : ComponentId) :
    graph.outgoing (order.idxOf c) =
      (g.outgoing c).filterMap ((g.innerPaths order).map (·.1)).idxOf? := by
  have hkept : ((g.innerPaths order).map (·.1)).Pairwise (· < ·) :=
    List.pairwise_map.2 (g.innerPaths_ascending order)
  refine eq_of_count (h.outgoing_ascending _)
    (renumbered_ascending hkept (hreg.outgoing_ascending c)) fun id => ?_
  rw [count_renumbered (hkept.imp Nat.ne_of_lt), h.count_outgoing, outgoingCount,
    path?_of_inner hpaths, List.getElem?_map]
  cases hentry : (g.innerPaths order)[id]? with
  | none => rfl
  | some entry =>
    have hmem := List.mem_of_getElem? hentry
    obtain ⟨hpath, hsource, htarget⟩ := mem_innerPaths.1 hmem
    simp only [Option.map_some, hreg.count_outgoing, outgoingCount, hpath]
    exact (hrenumbers entry hmem).outgoingAt_eq hsource htarget

/-- The paths that reach a component are those that reached it, as far as they are kept. -/
theorem Graph.Registered.incoming_eq_filterMap (hreg : g.Registered) (h : graph.Registered)
    (c : ComponentId) :
    graph.incoming (order.idxOf c) =
      (g.incoming c).filterMap ((g.innerPaths order).map (·.1)).idxOf? := by
  have hkept : ((g.innerPaths order).map (·.1)).Pairwise (· < ·) :=
    List.pairwise_map.2 (g.innerPaths_ascending order)
  refine eq_of_count (h.incoming_ascending _)
    (renumbered_ascending hkept (hreg.incoming_ascending c)) fun id => ?_
  rw [count_renumbered (hkept.imp Nat.ne_of_lt), h.count_incoming, incomingCount,
    path?_of_inner hpaths, List.getElem?_map]
  cases hentry : (g.innerPaths order)[id]? with
  | none => rfl
  | some entry =>
    have hmem := List.mem_of_getElem? hentry
    obtain ⟨hpath, hsource, htarget⟩ := mem_innerPaths.1 hmem
    simp only [Option.map_some, hreg.count_incoming, incomingCount, hpath]
    exact (hrenumbers entry hmem).incomingAt_eq hsource htarget

end Paths

theorem Graph.toList_members_restrictBy (g : Graph)
    (kept : AttributeOwner → Attributes → Attributes) (r : Registry) (root : ComponentId)
    (calls : CallLog) :
    (g.restrictBy kept root).members.toList = (g.blocks r (g.subtree root) calls).1.map fun b =>
      b.member.renumber (kept (.component b.id) b.member.attributes)
        (if b.id = root then none else b.member.parent) (g.subtree root)
        ((g.innerPaths (g.subtree root)).map (·.1)) := by
  let ids := (g.innerPaths (g.subtree root)).map (·.1)
  let renumbered (entry : ComponentId × Member) : Member :=
    entry.2.renumber (kept (.component entry.1) entry.2.attributes)
      (if entry.1 = root then none else entry.2.parent) (g.subtree root) ids
  have hentries := congrArg (List.map renumbered) (Block.map_entry_blocks g r (g.subtree root) calls)
  rw [List.map_map, List.map_filterMap] at hentries
  refine Eq.trans (List.filterMap_congr fun c _ => ?_) hentries.symm
  rw [Option.map_map]
  rfl

theorem Graph.toList_paths_restrictBy (g : Graph)
    (kept : AttributeOwner → Attributes → Attributes) (root : ComponentId) :
    (g.restrictBy kept root).paths.toList = (g.innerPaths (g.subtree root)).map fun entry =>
      some (entry.2.renumber (kept (.dataPath entry.1) entry.2.attributes) (g.subtree root)) :=
  rfl

theorem Graph.countP_isSome_paths_restrictBy (g : Graph)
    (kept : AttributeOwner → Attributes → Attributes) (root : ComponentId) :
    (g.restrictBy kept root).paths.toList.countP Option.isSome =
      (g.restrictBy kept root).livePaths := by
  have hall : ∀ slot ∈ (g.restrictBy kept root).paths.toList, slot.isSome = true := by
    intro slot hslot
    rw [toList_paths_restrictBy] at hslot
    obtain ⟨entry, -, rfl⟩ := List.mem_map.1 hslot
    rfl
  rw [List.countP_eq_length.2 hall, toList_paths_restrictBy, List.length_map]
  rfl

theorem Graph.toList_members_restrict (g : Graph) (r : Registry) (root : ComponentId)
    (calls : CallLog) :
    (g.restrict r root).members.toList = (g.blocks r (g.subtree root) calls).1.map fun b =>
      b.member.restrict r (if b.id = root then none else b.member.parent) (g.subtree root)
        ((g.innerPaths (g.subtree root)).map (·.1)) :=
  g.toList_members_restrictBy (fun _ a => a.restored r) r root calls

theorem Graph.toList_paths_restrict (g : Graph) (r : Registry) (root : ComponentId) :
    (g.restrict r root).paths.toList =
      (g.innerPaths (g.subtree root)).map fun entry =>
        some (entry.2.restrict r (g.subtree root)) :=
  rfl

namespace TreeIndex.Rebuilt

section Restrict

variable {g : Graph} {r : Registry} {root : ComponentId} {place : ComponentId → Nat}
  {order : List ComponentId} {full : List Block} {index : TreeIndex} {graph graph' : Graph}
  {kept : AttributeOwner → Attributes → Attributes} (hids : full.map (·.id) = order)
  (h : Rebuilt g r root place full full [] index graph)

include hids h

/-- The paths that were read are those inside of the subtree, renumbered. -/
theorem paths_eq_inner {blocks : List PathBlock}
    (hentries : blocks.map (fun b => (b.id, b.path)) = g.innerPaths order)
    (hread : ∀ b ∈ blocks, .ofList (r.unpackAll b.attributes.packed) =
      kept (.dataPath b.id) b.path.attributes)
    (hextended : graph.Extended (blocks.map (·.decoded r (number full))) graph') :
    graph'.paths.toList = (g.innerPaths order).map fun entry =>
      some (entry.2.renumber (kept (.dataPath entry.1) entry.2.attributes) order) := by
  have hnumber : number full = order.idxOf := by
    funext c
    rw [number, hids]
  rw [hextended.paths_eq, h.paths_eq, ← hentries, hnumber, List.map_map, List.map_map]
  refine List.map_congr_left fun b hb => ?_
  simp only [Function.comp, PathBlock.decoded, DataPath.renumber, hread b hb]

/-- The component that was read as number `i` is the one that its block was stored from,
renumbered. -/
theorem member?_eq_renumber (hwf : g.WellFormed) (hv : Graph.Visits g [root] order)
    {paths : List DataPath} (hextended : graph.Extended paths graph')
    (hpaths : graph'.paths.toList = (g.innerPaths order).map fun entry =>
      some (entry.2.renumber (kept (.dataPath entry.1) entry.2.attributes) order))
    {i : ComponentId} {b : Block} (hb : full[i]? = some b) (hold : g.member? b.id = some b.member) :
    graph'.member? i =
      some (b.member.renumber (.ofList (r.unpackAll b.attributes.packed))
        (if b.id = root then none else b.member.parent) order ((g.innerPaths order).map (·.1))) := by
  have hposition := idxOf_id hids (hwf.toForest.nodup_of_visits hv) hb
  have hcontent := (hextended.content?_eq i).trans (h.content?_eq i b hb)
  have hparent : graph'.parent? i =
      (if b.id = root then none else b.member.parent).map order.idxOf := by
    rw [hextended.parent?_eq, h.parent?_eq i b hb, newParent, Graph.parent?_eq hold]
    by_cases hroot : b.id = root
    · rw [if_pos hroot, if_pos hroot, Option.map_none]
    · rw [if_neg hroot, if_neg hroot, ← hids]
      rfl
  have hchildren : graph'.children i = b.member.children.map order.idxOf := by
    rw [hextended.children_eq, h.children_eq hwf.toForest hv hids hb, Graph.children_eq hold]
  have hrenumbers : ∀ entry ∈ g.innerPaths order, DataPath.Renumbers order entry.2
      (entry.2.renumber (kept (.dataPath entry.1) entry.2.attributes) order) :=
    fun entry _ => entry.2.renumbers_renumber _ order
  have houtgoing : graph'.outgoing i =
      b.member.outgoing.filterMap ((g.innerPaths order).map (·.1)).idxOf? := by
    rw [← hposition, ← Graph.outgoing_eq hold]
    exact hwf.toRegistered.outgoing_eq_filterMap hpaths hrenumbers
      hextended.wellFormed.toRegistered b.id
  have hincoming : graph'.incoming i =
      b.member.incoming.filterMap ((g.innerPaths order).map (·.1)).idxOf? := by
    rw [← hposition, ← Graph.incoming_eq hold]
    exact hwf.toRegistered.incoming_eq_filterMap hpaths hrenumbers
      hextended.wellFormed.toRegistered b.id
  rw [Graph.member?_of_content? hcontent, hparent, hchildren, houtgoing, hincoming, Block.decoded]
  rfl

end Restrict

/-- What was read from the blocks of a subtree and of the paths inside of it is the restriction by the
attributes that were read. -/
theorem eq_restrictBy {g : Graph} (hwf : g.WellFormed) {r r' : Registry} {root : ComponentId}
    (hroot : root < g.size) {place : ComponentId → Nat} {index : TreeIndex} {graph graph' : Graph}
    {kept : AttributeOwner → Attributes → Attributes} (start : Nat) (calls : CallLog) :
    let s := g.storedTopology r root start calls
    (∀ b ∈ s.blocks, .ofList (r'.unpackAll b.attributes.packed) =
      kept (.component b.id) b.member.attributes) →
    (∀ b ∈ s.paths, .ofList (r'.unpackAll b.attributes.packed) =
      kept (.dataPath b.id) b.path.attributes) →
    Rebuilt g r' root place s.blocks s.blocks [] index graph →
      graph.Extended (s.paths.map (·.decoded r' (number s.blocks))) graph' →
        graph' = g.restrictBy kept root := by
  intro s hblocks hpathBlocks h hextended
  have hv := hwf.toForest.visits_subtree hroot
  have hids := hwf.map_id_blocks r hroot start calls
  have hpaths := h.paths_eq_inner hids (PathBlock.map_entry_ofPaths ..) hpathBlocks hextended
  have hsize : graph'.size = s.blocks.length := hextended.size_eq.trans h.size_eq
  have hmembers : graph'.members = (g.restrictBy kept root).members := by
    refine Array.ext_getElem? fun i => ?_
    have hget : (g.restrictBy kept root).members[i]? = (g.restrictBy kept root).members.toList[i]? :=
      Array.getElem?_toList.symm
    have hstored : (g.blocks r (g.subtree root) calls).1 = s.blocks := rfl
    rw [hget, g.toList_members_restrictBy kept r root calls, hstored, List.getElem?_map]
    cases hb : s.blocks[i]? with
    | none =>
      rw [List.getElem?_eq_none_iff, ← hsize] at hb
      exact Graph.member?_eq_none_iff.2 hb
    | some b =>
      have hmem := List.mem_of_getElem? hb
      obtain ⟨-, hold, -⟩ := Block.exists_packAll_of_mem hmem
      rw [Option.map_some, ← hblocks b hmem]
      exact h.member?_eq_renumber hids hwf hv hextended hpaths hb hold
  have hroots : graph'.roots = (g.restrictBy kept root).roots :=
    hextended.roots_eq.trans (h.roots_eq hwf.toForest hv hids)
  rw [← g.toList_paths_restrictBy] at hpaths
  have hlive : graph'.livePaths = (g.restrictBy kept root).livePaths := by
    rw [hextended.wellFormed.livePaths_eq, Graph.length_livePathList, hpaths,
      g.countP_isSome_paths_restrictBy]
  have hslots : graph'.paths = (g.restrictBy kept root).paths := Array.toList_inj.1 hpaths
  show (⟨graph'.members, graph'.roots, graph'.paths, graph'.livePaths⟩ : Graph) = _
  rw [hmembers, hroots, hslots, hlive]

/-- What was read from the blocks of a subtree and of the paths inside of it is the restriction. -/
theorem eq_restrict {g : Graph} (hwf : g.WellFormed) {r : Registry} (hpure : r.custom.Pure)
    {root : ComponentId} (hroot : root < g.size) {place : ComponentId → Nat} {index : TreeIndex}
    {graph graph' : Graph} (start : Nat) (calls : CallLog) :
    let s := g.storedTopology r root start calls
    Rebuilt g r root place s.blocks s.blocks [] index graph →
      graph.Extended (s.paths.map (·.decoded r (number s.blocks))) graph' →
        graph' = g.restrict r root := by
  intro s h hextended
  have hpacked (a : Attributes) (earlier : CallLog) :
      .ofList (r.unpackAll (r.packAll a.entries earlier).1.packed) = a.restored r := by
    rw [Registry.packAll_eq hpure, Attributes.ofList_unpackAll hpure]
  rw [Graph.restrict_eq_restrictBy]
  refine eq_restrictBy hwf hroot start calls (fun b hb => ?_) (fun b hb => ?_) h hextended
  · obtain ⟨-, -, earlier, hb⟩ := Block.exists_packAll_of_mem hb
    rw [hb, hpacked]
  · obtain ⟨-, earlier, hb⟩ := PathBlock.exists_packAll_of_mem hb
    rw [hb, hpacked]

end TreeIndex.Rebuilt

end HardwareMap
