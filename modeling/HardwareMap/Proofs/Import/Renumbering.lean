import HardwareMap.Proofs.Attribute.Restored
import HardwareMap.Proofs.Import.Restriction

/-!
# What is stored of a restriction

A restriction differs from the part of the graph that it was made of in the numbers of its components
and paths, and in the attributes that were left out.  Neither is stored: a component is referred to by
its place, and a path comes at its turn.  So a restriction is stored as the very same bytes
(`Graph.stored_restrict`), its paths are all inside of its tree, and its estimate is no larger, the paths
that led out of the tree being counted no more (`Graph.total_restrict_le`).
-/

namespace HardwareMap

/-! ## Blocks with new numbers -/

/-- A block of the restriction, from the block that it comes from. -/
def Block.restrict (b : Block) (r : Registry) (root : ComponentId) (order : List ComponentId)
    (kept : List PathId) : Block where
  id := order.idxOf b.id
  member := b.member.restrict r (if b.id = root then none else b.member.parent) order kept
  attributes := r.packed (b.member.attributes.restored r).entries

theorem filterMap_range_getElem? {α β : Type} (l : List α) (f : Nat → α → β) :
    (List.range l.length).filterMap (fun i => l[i]?.map (f i)) = l.mapIdx f := by
  induction l using List.reverseRecOn with
  | nil => rfl
  | append_singleton l last ih =>
    rw [List.length_append, List.length_singleton, List.range_succ, List.filterMap_append,
      List.mapIdx_concat, ← ih]
    congr 1
    · refine List.filterMap_congr fun i hi => ?_
      rw [List.getElem?_append_left (List.mem_range.1 hi)]
    · simp

namespace Block

variable {place place' : ComponentId → Nat} {f : Block → Block} {blocks : List Block}

theorem sizes_map (h : ∀ b ∈ blocks, (f b).size = b.size) : sizes (blocks.map f) = sizes blocks := by
  rw [sizes, sizes, List.map_map]
  exact congrArg List.sum (List.map_congr_left h)

theorem storedList_map (hsize : ∀ b ∈ blocks, (f b).size = b.size)
    (hstored : ∀ b ∈ blocks, ∀ start, (f b).stored place' start = b.stored place start) (start : Nat) :
    storedList place' start (blocks.map f) = storedList place start blocks := by
  induction blocks generalizing start with
  | nil => rfl
  | cons b rest ih =>
    rw [List.map_cons, storedList, storedList, hsize b List.mem_cons_self,
      hstored b List.mem_cons_self, ih (fun b' hb' => hsize b' (List.mem_cons_of_mem _ hb'))
        (fun b' hb' => hstored b' (List.mem_cons_of_mem _ hb'))]

/-- A component under its new number stands where it stood. -/
theorem place_map {c c' : ComponentId} (hsize : ∀ b ∈ blocks, (f b).size = b.size)
    (hid : ∀ b ∈ blocks, (f b).id = c' ↔ b.id = c) (start : Nat) :
    Block.place start (blocks.map f) c' = Block.place start blocks c := by
  induction blocks generalizing start with
  | nil => rfl
  | cons b rest ih =>
    rw [List.map_cons, place_cons, place_cons, hsize b List.mem_cons_self,
      ih (fun b' hb' => hsize b' (List.mem_cons_of_mem _ hb'))
        (fun b' hb' => hid b' (List.mem_cons_of_mem _ hb'))]
    simp only [hid b List.mem_cons_self]

section Restrict

variable {r : Registry} (hpure : r.custom.Pure) (hrestores : r.Restores) {b : Block}
  (hpacked : b.attributes = r.packed b.member.attributes.entries) (root : ComponentId)
  (order : List ComponentId) (kept : List PathId)

include hpure hrestores hpacked

theorem attributes_restrict :
    (b.restrict r root order kept).attributes = { b.attributes with dropped := [] } := by
  rw [hpacked]
  exact Registry.packed_restored hrestores hpure b.member.attributes

theorem tableOffset_restrict : (b.restrict r root order kept).tableOffset = b.tableOffset := by
  rw [tableOffset, attributes_restrict hpure hrestores hpacked]
  rfl

theorem size_restrict : (b.restrict r root order kept).size = b.size := by
  rw [size, tableOffset_restrict hpure hrestores hpacked]
  exact congrArg (b.tableOffset + · * wordSize) (List.length_map _)

theorem stored_restrict {place place' : ComponentId → Nat}
    (hplace : ∀ c ∈ b.member.children, place' (order.idxOf c) = place c) (start : Nat) :
    (b.restrict r root order kept).stored place' start = b.stored place start := by
  have htable : (b.restrict r root order kept).table start = b.table start := by
    rw [table, tableOffset_restrict hpure hrestores hpacked]
    exact congrArg (ChildTable.mk _) (List.length_map _)
  have hchildren : (b.member.children.map order.idxOf).map place' = b.member.children.map place := by
    rw [List.map_map]
    exact List.map_congr_left hplace
  rw [stored, storedAround, htable, attributes_restrict hpure hrestores hpacked]
  show b.member.head ++ (_ ++ (b.member.tail ++ (_ ++ ChildTable.storedOffsets
    ((b.member.children.map order.idxOf).map place')))) = _
  rw [hchildren]
  rfl

end Restrict

end Block

/-! ## The tree of a restriction -/

/-! ## The paths of a restriction -/

theorem Graph.livePathList_restrict (g : Graph) (r : Registry) (root : ComponentId) :
    (g.restrict r root).livePathList =
      (g.innerPaths (g.subtree root)).zipIdx.map fun entry =>
        (entry.2, entry.1.2.restrict r (g.subtree root)) := by
  rw [livePathList, toList_paths_restrict, List.zipIdx_map, List.filterMap_map]
  exact congrFun List.filterMap_eq_map _

section Restriction

variable {g : Graph} (hwf : g.WellFormed) {r : Registry} (hpure : r.custom.Pure)
  {root : ComponentId} (hroot : root < g.size)
  (hsubtree : (g.restrict r root).subtree 0 = List.range (g.restrict r root).size)
  (calls calls' : CallLog)

include hwf hpure hroot

include hsubtree in
/-- The blocks of a restriction, whose tree holds all of it. -/
theorem Graph.WellFormed.blocks_restrict :
    let order := g.subtree root
    ((g.restrict r root).storedTopology r 0 0 calls).blocks =
      (g.storedTopology r root 0 calls').blocks.map
        (·.restrict r root order ((g.innerPaths order).map (·.1))) := by
  intro order
  let blocks := (g.storedTopology r root 0 calls').blocks
  let kept := (g.innerPaths order).map (·.1)
  have hids : blocks.map (·.id) = order := hwf.map_id_blocks r hroot 0 calls'
  have hnodup : order.Nodup := hwf.toForest.nodup_subtree hroot
  have hmembers : (g.restrict r root).members.toList = blocks.map fun b =>
      b.member.restrict r (if b.id = root then none else b.member.parent) order kept :=
    g.toList_members_restrict r root calls'
  have hblocks : ((g.restrict r root).storedTopology r 0 0 calls).blocks =
      (g.restrict r root).members.toList.mapIdx fun id m =>
        { id, member := m, attributes := r.packed m.attributes.entries } := by
    show ((g.restrict r root).blocks r ((g.restrict r root).subtree 0) calls).1 = _
    rw [hsubtree, blocks_eq hpure, ← filterMap_range_getElem?, Array.length_toList]
    simp only [Array.getElem?_toList]
    rfl
  rw [hblocks, hmembers]
  refine List.ext_getElem? fun i => ?_
  rw [List.getElem?_mapIdx, List.getElem?_map, List.getElem?_map]
  cases hb : blocks[i]? with
  | none => rfl
  | some b =>
    rw [← TreeIndex.Rebuilt.idxOf_id hids hnodup hb]
    rfl

omit hpure in
theorem Graph.WellFormed.size_restrict : (g.restrict r root).size = (g.subtree root).length := by
  have hids := congrArg List.length (hwf.map_id_blocks r hroot 0 ∅)
  rw [List.length_map] at hids
  rw [size, ← Array.length_toList, g.toList_members_restrict r root ∅, List.length_map]
  exact hids

variable (hrestores : r.Restores)

include hsubtree hrestores

theorem Graph.WellFormed.treeSize_restrict :
    ((g.restrict r root).storedTopology r 0 0 calls).treeSize =
      (g.storedTopology r root 0 calls').treeSize := by
  rw [StoredTopology.treeSize, hwf.blocks_restrict hpure hroot hsubtree calls calls']
  exact Block.sizes_map fun b hb => Block.size_restrict hpure hrestores
    (Block.of_mem_blocks hpure hb).2.2 _ _ _

/-- A component stands where it stood. -/
theorem Graph.WellFormed.place_restrict (c : ComponentId) :
    ((g.restrict r root).storedTopology r 0 0 calls).place ((g.subtree root).idxOf c) =
      (g.storedTopology r root 0 calls').place c := by
  unfold StoredTopology.place
  rw [hwf.blocks_restrict hpure hroot hsubtree calls calls']
  refine Block.place_map (fun b hb => ?_) (fun b hb => ?_) 0
  · exact Block.size_restrict hpure hrestores (Block.of_mem_blocks hpure hb).2.2 _ _ _
  · exact List.idxOf_inj (Block.of_mem_blocks hpure hb).1

theorem Graph.WellFormed.storedTree_restrict :
    let s := g.storedTopology r root 0 calls'
    let s' := (g.restrict r root).storedTopology r 0 0 calls
    Block.storedList s'.place 0 s'.blocks = Block.storedList s.place 0 s.blocks := by
  intro s s'
  show Block.storedList s'.place 0 s'.blocks = _
  rw [hwf.blocks_restrict hpure hroot hsubtree calls calls']
  refine Block.storedList_map (fun b hb => ?_) (fun b hb => ?_) 0
  · exact Block.size_restrict hpure hrestores (Block.of_mem_blocks hpure hb).2.2 _ _ _
  · obtain ⟨-, -, hpacked⟩ := Block.of_mem_blocks hpure hb
    exact Block.stored_restrict hpure hrestores hpacked _ _ _
      (fun c _ => hwf.place_restrict hpure hroot hsubtree calls calls' hrestores c)

omit hpure hrestores in
theorem Graph.WellFormed.innerPaths_restrict :
    (g.restrict r root).innerPaths ((g.restrict r root).subtree 0) =
      (g.restrict r root).livePathList := by
  rw [hsubtree, hwf.size_restrict hroot]
  refine List.filter_eq_self.2 fun entry hentry => ?_
  rw [g.livePathList_restrict] at hentry
  obtain ⟨⟨⟨id, path⟩, i⟩, hmem, rfl⟩ := List.mem_map.1 hentry
  obtain ⟨-, hsource, htarget⟩ := mem_innerPaths.1 (List.fst_mem_of_mem_zipIdx hmem)
  rw [Bool.and_eq_true, decide_eq_true_eq, decide_eq_true_eq, List.mem_range, List.mem_range]
  exact ⟨List.idxOf_lt_length_of_mem hsource, List.idxOf_lt_length_of_mem htarget⟩

omit hrestores in
theorem Graph.WellFormed.paths_restrict :
    ((g.restrict r root).storedTopology r 0 0 calls).paths =
      (g.innerPaths (g.subtree root)).zipIdx.map fun entry =>
        { id := entry.2, path := entry.1.2.restrict r (g.subtree root),
          attributes := r.packed (entry.1.2.attributes.restored r).entries } := by
  refine (PathBlock.ofPaths_eq hpure _ _).trans ?_
  rw [hwf.innerPaths_restrict hroot hsubtree, g.livePathList_restrict, List.map_map]
  rfl

/-- What is stored of the paths of a restriction, whose ends stand where they stood. -/
theorem Graph.WellFormed.storedPaths_restrict :
    let s := g.storedTopology r root 0 calls'
    let s' := (g.restrict r root).storedTopology r 0 0 calls
    PathBlock.storedSection s'.place s'.paths = PathBlock.storedSection s.place s.paths := by
  intro s s'
  have hpaths : s.paths = (g.innerPaths (g.subtree root)).zipIdx.map fun entry =>
      { id := entry.1.1, path := entry.1.2,
        attributes := r.packed entry.1.2.attributes.entries } := by
    refine (PathBlock.ofPaths_eq hpure _ _).trans ?_
    conv => lhs; rw [← List.zipIdx_map_fst 0 (g.innerPaths (g.subtree root)), List.map_map]
    rfl
  have hpaths' := hwf.paths_restrict hpure hroot hsubtree calls
  have hplace := hwf.place_restrict hpure hroot hsubtree calls calls' hrestores
  rw [hpaths, hpaths', PathBlock.storedSection, PathBlock.storedSection, List.length_map,
    List.length_map, PathBlock.storedList, PathBlock.storedList, List.flatMap_map, List.flatMap_map]
  refine congrArg _ (List.flatMap_congr fun entry _ => ?_)
  have hpacked := Registry.packed_restored hrestores hpure entry.1.2.attributes
  simp only [PathBlock.stored, hpacked, DataPath.restrict, PathRecord.ofPath, s', s, hplace]

/-- A restriction is stored as the same bytes as what it was made of. -/
theorem Graph.WellFormed.stored_restrict :
    ((g.restrict r root).storedTopology r 0 0 calls).stored =
      (g.storedTopology r root 0 calls').stored := by
  have htree := hwf.storedTree_restrict hpure hroot hsubtree calls calls' hrestores
  have hpaths := hwf.storedPaths_restrict hpure hroot hsubtree calls calls' hrestores
  exact congrArg₂ (· ++ ·) htree hpaths

/-- Of a restriction no attribute is left out. -/
theorem Graph.WellFormed.dropped_restrict :
    let s' := (g.restrict r root).storedTopology r 0 0 calls
    Block.dropped s'.blocks = [] ∧ PathBlock.dropped s'.paths = [] := by
  intro s'
  constructor
  · rw [Block.dropped, hwf.blocks_restrict hpure hroot hsubtree calls ∅, List.flatMap_map]
    refine List.flatMap_eq_nil_iff.2 fun b hb => ?_
    rw [Block.attributes_restrict hpure hrestores (Block.of_mem_blocks hpure hb).2.2]
    rfl
  · rw [PathBlock.dropped, hwf.paths_restrict hpure hroot hsubtree calls, List.flatMap_map]
    refine List.flatMap_eq_nil_iff.2 fun entry _ => ?_
    rw [Registry.packed_restored hrestores hpure]
    rfl

end Restriction

/-! ## The estimate of a restriction -/

theorem sum_map_filterMap_le {α β : Type} {f : α → Option β} {size : β → Nat} {size' : α → Nat}
    (h : ∀ a b, f a = some b → size b = size' a) (l : List α) :
    ((l.filterMap f).map size).sum ≤ (l.map size').sum := by
  induction l with
  | nil => exact Nat.le_refl 0
  | cons a rest ih =>
    rw [List.map_cons, List.sum_cons]
    cases hf : f a with
    | none =>
      rw [List.filterMap_cons_none hf]
      exact Nat.le_trans ih (Nat.le_add_left _ _)
    | some b =>
      rw [List.filterMap_cons_some hf, List.map_cons, List.sum_cons, h a b hf]
      exact Nat.add_le_add_left ih _

/-- Renumbering the members of a list after those of another were added that are not in it. -/
theorem filterMap_foldl_append {f : PathId → Option PathId}
    (hf : ∀ a b i, f a = some i → f b = some i → a = b) (l found : List PathId) :
    (l.foldl (fun found path => if path ∈ found then found else found ++ [path]) found).filterMap f =
      (l.filterMap f).foldl (fun found path => if path ∈ found then found else found ++ [path])
        (found.filterMap f) := by
  induction l generalizing found with
  | nil => rfl
  | cons path rest ih =>
    rw [List.foldl_cons, ih]
    cases h : f path with
    | none =>
      rw [List.filterMap_cons_none h]
      congr 1
      split
      · rfl
      · rw [List.filterMap_append, List.filterMap_cons_none h, List.filterMap_nil, List.append_nil]
    | some i =>
      have hmem : i ∈ found.filterMap f ↔ path ∈ found := by
        rw [List.mem_filterMap]
        constructor
        · rintro ⟨other, hother, hi⟩
          rw [hf path other i h hi]
          exact hother
        · exact fun hpath => ⟨path, hpath, h⟩
      rw [List.filterMap_cons_some h, List.foldl_cons]
      simp only [hmem]
      congr 1
      split
      · rfl
      · rw [List.filterMap_append, List.filterMap_cons_some h, List.filterMap_nil]

section Estimate

variable {g : Graph} (hwf : g.WellFormed) {r : Registry} (hpure : r.custom.Pure)
  {root : ComponentId} (hroot : root < g.size)

include hpure

/-- A path under its new number takes as many bytes. -/
theorem Graph.pathBytes_restrict (hrestores : r.Restores) {id i : PathId}
    (h : ((g.innerPaths (g.subtree root)).map (·.1)).idxOf? id = some i) :
    (g.restrict r root).pathBytes r i = g.pathBytes r id := by
  rw [idxOf?_eq_some_of_nodup (g.nodup_innerPaths _), List.getElem?_map] at h
  obtain ⟨⟨_, path⟩, hentry, rfl⟩ := Option.map_eq_some_iff.1 h
  obtain ⟨hpath, -, -⟩ := mem_innerPaths.1 (List.mem_of_getElem? hentry)
  have hpath' := path?_of_inner (g.toList_paths_restrict r root) i
  rw [hentry, Option.map_some] at hpath'
  have hpacked := Registry.packed_restored hrestores hpure path.attributes
  simp only [pathBytes, hpath, hpath', DataPath.restrict, hpacked]

include hwf hroot

/-- The paths at a component are those that were kept, under their new numbers. -/
theorem Graph.WellFormed.pathsOf_restrict {c : ComponentId} (hc : c ∈ g.subtree root) :
    (g.restrict r root).pathsOf ((g.subtree root).idxOf c) .any =
      (g.pathsOf c .any).filterMap ((g.innerPaths (g.subtree root)).map (·.1)).idxOf? := by
  obtain ⟨b, hb, rfl⟩ := TreeIndex.Rebuilt.getElem?_idxOf (hwf.map_id_blocks r hroot 0 ∅) hc
  obtain ⟨-, hmember, -⟩ := Block.of_mem_blocks hpure (List.mem_of_getElem? hb)
  have hmember' : (g.restrict r root).member? ((g.subtree root).idxOf b.id) =
      some (b.member.restrict r (if b.id = root then none else b.member.parent) (g.subtree root)
        ((g.innerPaths (g.subtree root)).map (·.1))) := by
    rw [member?, ← Array.getElem?_toList, g.toList_members_restrict r root ∅, List.getElem?_map]
    exact congrArg (Option.map _) hb
  rw [pathsOf, pathsOf, hmember, hmember']
  refine (filterMap_foldl_append ?_ _ _).symm
  intro a a' i ha ha'
  rw [idxOf?_eq_some_of_nodup (g.nodup_innerPaths _)] at ha ha'
  exact Option.some.inj (ha.symm.trans ha')

/-- A restriction takes no more bytes than were estimated for what it was made of. -/
theorem Graph.WellFormed.total_restrict_le (hrestores : r.Restores)
    (hsubtree : (g.restrict r root).subtree 0 = List.range (g.restrict r root).size) :
    (Estimate.ofSubtree (g.restrict r root) r 0).total ≤ (Estimate.ofSubtree g r root).total := by
  let order := g.subtree root
  have htree : (Estimate.ofSubtree (g.restrict r root) r 0).treeBytes =
      (Estimate.ofSubtree g r root).treeBytes := by
    rw [← treeSize_storedTopology hpure 0 0 ∅, ← treeSize_storedTopology hpure root 0 ∅]
    exact hwf.treeSize_restrict hpure hroot hsubtree ∅ ∅ hrestores
  have horder : (g.restrict r root).subtree 0 = order.map order.idxOf := by
    have hnodup : order.Nodup := hwf.toForest.nodup_subtree hroot
    rw [hsubtree, hwf.size_restrict hroot]
    refine List.ext_getElem (by rw [List.length_range, List.length_map]) fun i hi _ => ?_
    rw [List.length_range] at hi
    rw [List.getElem_range, List.getElem_map, hnodup.idxOf_getElem i hi]
  have hpaths : ((g.restrict r root).subtree 0).flatMap ((g.restrict r root).pathsOf · .any) =
      (order.flatMap (g.pathsOf · .any)).filterMap ((g.innerPaths order).map (·.1)).idxOf? := by
    rw [horder, List.flatMap_map, List.filterMap_flatMap]
    exact List.flatMap_congr fun c hc => hwf.pathsOf_restrict hpure hroot hc
  have hle : (Estimate.ofSubtree (g.restrict r root) r 0).pathBytes ≤
      (Estimate.ofSubtree g r root).pathBytes := by
    refine Nat.add_le_add_left ?_ wordSize
    rw [hpaths]
    exact sum_map_filterMap_le (fun id i => pathBytes_restrict hpure hrestores) _
  show headerSize + (Estimate.ofSubtree (g.restrict r root) r 0).treeBytes +
    (Estimate.ofSubtree (g.restrict r root) r 0).pathBytes ≤ headerSize +
      (Estimate.ofSubtree g r root).treeBytes + (Estimate.ofSubtree g r root).pathBytes
  omega

end Estimate

end HardwareMap
