import HardwareMap.Proofs.Attribute.Pure
import HardwareMap.Proofs.Export.Paths
import HardwareMap.Proofs.Export.WholePages
import HardwareMap.Proofs.Region.Staging
import Mathlib.Algebra.Order.BigOperators.Group.List
import Mathlib.Algebra.Order.Group.Nat

/-!
# An export fits into what was estimated for it

With pure encoders the estimate and the writer count the same bytes for every component, and a path
inside of the tree is found at its source, where the estimate counts it.  So a region of the
estimated size has room for the export, and text with a zero byte in it is the only thing that makes
the export fail (`Graph.write_fits_estimate`).
-/

namespace HardwareMap

/-! ## What is counted for each component and path -/

section Pure

variable {g : Graph} {r : Registry} (h : r.custom.Pure)

include h

/-- With pure encoders a block depends on the component alone. -/
theorem Graph.blocks_eq (order : List ComponentId) (calls : CallLog) :
    (g.blocks r order calls).1 = order.filterMap fun c =>
      (g.member? c).map fun m =>
        { id := c, member := m, attributes := r.packed m.attributes.entries } := by
  induction order generalizing calls with
  | nil => rfl
  | cons c rest ih =>
    cases hm : g.member? c with
    | none =>
      rw [List.filterMap_cons_none (by rw [hm]; rfl), ← ih calls]
      simp only [blocks, hm]
    | some m =>
      rw [List.filterMap_cons_some (by rw [hm]; rfl), blocks_cons hm, ih,
        Registry.packAll_eq h]

theorem Block.of_mem_blocks {order : List ComponentId} {calls : CallLog} {b : Block}
    (hb : b ∈ (g.blocks r order calls).1) :
    b.id ∈ order ∧ g.member? b.id = some b.member ∧
      b.attributes = r.packed b.member.attributes.entries := by
  obtain ⟨hmem, hmember, earlier, hpacked⟩ := exists_packAll_of_mem hb
  exact ⟨hmem, hmember, hpacked.trans (Registry.packAll_eq h _ earlier)⟩

theorem PathBlock.ofPaths_eq (paths : List (PathId × DataPath)) (calls : CallLog) :
    (ofPaths r paths calls).1 = paths.map fun entry =>
      { id := entry.1, path := entry.2,
        attributes := r.packed entry.2.attributes.entries } := by
  induction paths generalizing calls with
  | nil => rfl
  | cons entry rest ih =>
    rw [List.map_cons, ← ih, ← Registry.packAll_eq h]
    rfl

/-- Bytes of the path of a handle. -/
def Graph.pathBytes (g : Graph) (r : Registry) (id : PathId) : Nat :=
  match g.path? id with
  | none => 0
  | some path =>
    PathRecord.size +
      (Attributes.storedSection (r.packed path.attributes.entries).packed).length

theorem Estimate.pathListBytes_eq (ids : List PathId) (calls : CallLog) :
    (pathListBytes g r ids calls).1 = (ids.map (g.pathBytes r)).sum := by
  induction ids generalizing calls with
  | nil => rfl
  | cons id rest ih =>
    rw [List.map_cons, List.sum_cons, Graph.pathBytes]
    cases hp : g.path? id with
    | none =>
      simp only [pathListBytes, hp, ih]
      omega
    | some path =>
      simp only [pathListBytes, hp, ih, DataPath.storedSize, Attributes.sectionSize_eq,
        Registry.packAll_eq h]

/-- The estimate counts every block of the tree, and at every component all paths at it. -/
theorem Estimate.listBytes_eq (order : List ComponentId) (calls : CallLog) :
    (listBytes g r order calls).1 =
      (Block.sizes (g.blocks r order ∅).1,
        ((order.flatMap (g.pathsOf · .any)).map (g.pathBytes r)).sum) := by
  induction order generalizing calls with
  | nil => rfl
  | cons c rest ih =>
    rw [List.flatMap_cons, List.map_append, List.sum_append]
    cases hm : g.member? c with
    | none =>
      have hnil : g.pathsOf c .any = [] := Graph.pathsOf_of_member?_eq_none hm .any
      simp only [listBytes, Graph.blocks, hm, ih, hnil, List.map_nil, List.sum_nil, Nat.zero_add]
    | some m =>
      rw [Graph.blocks_cons hm, Graph.blocks_eq h rest, ← Graph.blocks_eq h rest ∅]
      simp only [listBytes, hm, memberBytes, Attributes.sectionSize_eq, ih, pathListBytes_eq h,
        Registry.packAll_eq h, Block.sizes, List.map_cons, List.sum_cons]
      rfl

end Pure

/-! ## The paths inside of a tree -/

theorem sum_map_le_of_subperm {α : Type} {l l' : List α} (h : l.Subperm l') (f : α → Nat) :
    (l.map f).sum ≤ (l'.map f).sum := by
  obtain ⟨m, hperm, hsub⟩ := h
  rw [← (hperm.map f).sum_eq]
  exact (hsub.map f).sum_le_sum fun _ _ => Nat.zero_le _

/-- Every path inside of the tree is counted at its source at least. -/
theorem Graph.Registered.sizes_inner_le {g : Graph} (h : g.Registered) {r : Registry}
    (hpure : r.custom.Pure) (order : List ComponentId) (calls : CallLog) :
    PathBlock.sizes (PathBlock.ofPaths r (g.innerPaths order) calls).1 ≤
      ((order.flatMap (g.pathsOf · .any)).map (g.pathBytes r)).sum := by
  have hinner : PathBlock.sizes (PathBlock.ofPaths r (g.innerPaths order) calls).1 =
      (((g.innerPaths order).map (·.1)).map (g.pathBytes r)).sum := by
    rw [PathBlock.ofPaths_eq hpure, PathBlock.sizes, List.map_map, List.map_map]
    refine congrArg List.sum (List.map_congr_left fun entry hentry => ?_)
    simp only [Function.comp, PathBlock.size, pathBytes, (mem_innerPaths.1 hentry).1]
  have hsubset : (g.innerPaths order).map (·.1) ⊆ order.flatMap (g.pathsOf · .any) := by
    intro id hid
    obtain ⟨⟨_, path⟩, hentry, rfl⟩ := List.mem_map.1 hid
    obtain ⟨hp, hsource, -⟩ := mem_innerPaths.1 hentry
    exact List.mem_flatMap.2 ⟨path.source, hsource, h.mem_pathsOf_any.2 ⟨path, hp, .inl rfl⟩⟩
  rw [hinner]
  exact sum_map_le_of_subperm (List.subperm_of_subset (g.nodup_innerPaths order) hsubset) _

/-! ## Writing what was sized -/

/-- A new region has room for everything but its header. -/
theorem Region.Fresh.le_remaining {config : RegionConfig} {region : Region} {t : FileTree}
    (h : Fresh config region t) {n : Nat} (hle : headerSize + n ≤ config.size) :
    n ≤ (region.window t).remaining := by
  rw [h.window_eq, Window.remaining, Window.size, Bytes.length_zeros]
  show n ≤ config.size - headerSize - 0
  omega

/-- The estimate of a subtree, added up from what its components and its paths are packed to. -/
def Estimate.ofSubtree (g : Graph) (r : Registry) (root : ComponentId) : Estimate :=
  let order := g.subtree root
  ofBytes order.length (Block.sizes (g.blocks r order ∅).1)
    (wordSize + ((order.flatMap (g.pathsOf · .any)).map (g.pathBytes r)).sum)

/-- With pure encoders the estimate for a known component is the same whichever calls were made before. -/
theorem Graph.estimate_eq (g : Graph) {r : Registry} (hpure : r.custom.Pure) {root : ComponentId}
    (hroot : root < g.size) (calls : CallLog) :
    g.estimate r root calls = ((Estimate.ofSubtree g r root).outcome,
      (Estimate.listBytes g r (g.subtree root) calls).2) := by
  have hneeded : g.needed r root calls = Estimate.ofSubtree g r root := by
    rw [needed, Estimate.listBytes_eq hpure]
    rfl
  rw [estimate_eq_outcome hroot, hneeded]

/-- What a subtree needs is its estimate as long as the whole pages are a machine word. -/
theorem Graph.estimate_eq_ok {g : Graph} {r : Registry} (hpure : r.custom.Pure) {root : ComponentId}
    (hroot : root < g.size) {e : Estimate} (hneeded : Estimate.ofSubtree g r root = e)
    (htotal : e.total ≤ lastWholePage) (calls : CallLog) : (g.estimate r root calls).1 = .ok e := by
  rw [g.estimate_eq hpure hroot, hneeded]
  exact Estimate.outcome_eq_ok.2 ⟨htotal, rfl⟩

/-- A known component is sized. -/
theorem Exporter.size_eq (g : Graph) {r : Registry} (hpure : r.custom.Pure) {root : ComponentId}
    (hroot : root < g.size) :
    ∃ calls, Exporter.size { graph := g, registry := r } root =
      ((Estimate.ofSubtree g r root).outcome,
        { graph := g, registry := r, phase := .sizing, calls }) := by
  simp only [size, enter, if_true, g.estimate_eq hpure hroot]
  exact ⟨_, rfl⟩

/-- A known component can be sized if the whole pages that it needs are a machine word. -/
theorem Exporter.size_eq_ok (g : Graph) {r : Registry} (hpure : r.custom.Pure) {root : ComponentId}
    (hroot : root < g.size)
    (htotal : (Estimate.ofSubtree g r root).total < UInt64.size - pageSize.toNat) :
    ∃ calls, Exporter.size { graph := g, registry := r } root =
      (.ok (.ofSubtree g r root), { graph := g, registry := r, phase := .sizing, calls }) := by
  obtain ⟨calls, hsize⟩ := Exporter.size_eq g hpure hroot
  refine ⟨calls, hsize.trans ?_⟩
  rw [Estimate.outcome_eq_ok.2 ⟨Nat.le_of_lt htotal, rfl⟩]

section Fits

variable {g : Graph} (hwf : g.WellFormed) {r : Registry} (hpure : r.custom.Pure)
  (root : ComponentId) (start : Nat) (calls : CallLog)

include hpure

theorem Graph.blocks_storedTopology :
    (g.storedTopology r root start calls).blocks = (g.blocks r (g.subtree root) ∅).1 := by
  show (g.blocks r (g.subtree root) calls).1 = _
  rw [blocks_eq hpure, blocks_eq hpure]

theorem Graph.treeSize_storedTopology :
    (g.storedTopology r root start calls).treeSize = (Estimate.ofSubtree g r root).treeBytes := by
  rw [StoredTopology.treeSize, blocks_storedTopology hpure]
  rfl

include hwf

theorem Graph.WellFormed.pathSize_storedTopology_le :
    (g.storedTopology r root start calls).pathSize ≤ (Estimate.ofSubtree g r root).pathBytes :=
  Nat.add_le_add_left (hwf.toRegistered.sizes_inner_le hpure (g.subtree root) _) _

theorem Graph.WellFormed.storedTopology_le_total :
    headerSize + (g.storedTopology r root start calls).stored.length ≤
      (Estimate.ofSubtree g r root).total := by
  have htree := treeSize_storedTopology (g := g) hpure root start calls
  have hpaths := hwf.pathSize_storedTopology_le hpure root start calls
  rw [StoredTopology.length_stored, htree, ← Nat.add_assoc]
  exact Nat.add_le_add_left hpaths _

/-- The estimated size has room for the stored topology. -/
theorem Graph.WellFormed.storedTopology_le :
    headerSize + (g.storedTopology r root start calls).stored.length ≤
      (Estimate.ofSubtree g r root).fileSize :=
  Nat.le_trans (hwf.storedTopology_le_total hpure root start calls) (le_wholePages _)

/-- A new region of the estimated size has room for the stored topology. -/
theorem Graph.WellFormed.storedTopology_fits
    (config : RegionConfig) {region : Region} {t : FileTree}
    (hfresh : Region.Fresh { config with size := (Estimate.ofSubtree g r root).fileSize } region t) :
    (g.storedTopology r root start calls).stored.length ≤ (region.window t).remaining :=
  hfresh.le_remaining (hwf.storedTopology_le hpure root start calls)

end Fits

theorem Block.storable_blocks {g : Graph} {r : Registry} (hpure : r.custom.Pure)
    (order : List ComponentId) (calls : CallLog) :
    Storable (g.blocks r order calls).1 ↔
      ∀ c ∈ order, ∀ m, g.member? c = some m → NulFree m.texts := by
  rw [Graph.blocks_eq hpure, Storable]
  constructor
  · intro h c hc m hm
    exact h { id := c, member := m, attributes := r.packed m.attributes.entries }
      (List.mem_filterMap.2 ⟨c, hc, by rw [hm]; rfl⟩)
  · intro h b hb
    obtain ⟨c, hc, hb⟩ := List.mem_filterMap.1 hb
    obtain ⟨m, hm, rfl⟩ := Option.map_eq_some_iff.1 hb
    exact h c hc m hm

/-- **Sizing suffices**: what a subtree needs can be estimated as long as it is a page less than the machine
words, and an export with pure encoders into a region of the estimated size succeeds if and only if no
component of the subtree has a zero byte in one of its texts, and fails with such a text otherwise.  The
tree ends where it was estimated to end, every component is written, and the whole is no longer than tree
and paths were estimated to be. -/
theorem Graph.write_fits_estimate (list : List Edit) {custom : Table} (hpure : custom.Pure)
    {root : ComponentId} (hroot : root < (Graph.empty.edits list).size) :
    let g := Graph.empty.edits list
    let estimate := Estimate.ofSubtree g { custom } root
    estimate.total < UInt64.size - pageSize.toNat →
      ∃ x, Exporter.size { graph := g, registry := { custom } } root = (.ok estimate, x) ∧
        ∀ (config : RegionConfig) (t t' : FileTree) (region : Region),
          Region.create { config with size := estimate.fileSize } t = (.ok region, t') →
          let (outcome, _, w) := x.write root (region.window t')
          ((∃ answer, outcome = .ok answer) ↔
            ∀ c ∈ g.subtree root, ∀ m, g.member? c = some m → NulFree m.texts) ∧
          (∀ e, outcome = .error e → ∃ text, e = .misuse (.interiorNul text)) ∧
          ∀ tree paths, outcome = .ok (tree, paths) →
            tree.stop = estimate.treeBytes ∧ paths.offset = estimate.treeBytes ∧
            tree.placements.length = estimate.components ∧
            w.cursor ≤ estimate.treeBytes + estimate.pathBytes := by
  intro g estimate htotal
  have hwf : g.WellFormed := WellFormed.empty.edits list
  let r : Registry := { custom }
  obtain ⟨calls, hsize⟩ := Exporter.size_eq_ok g (r := r) hpure hroot htotal
  let x : Exporter := { graph := g, registry := r, phase := .sizing, calls }
  refine ⟨x, hsize, fun config t t' region hcreate => ?_⟩
  have hfresh := Region.fresh_of_create hcreate
  have hw := hfresh.writable
  let s := g.storedTopology r root 0 calls
  have htree : s.treeSize = estimate.treeBytes := treeSize_storedTopology hpure root 0 calls
  have hpaths : s.pathSize ≤ estimate.pathBytes :=
    hwf.pathSize_storedTopology_le hpure root 0 calls
  have hfit : s.stored.length ≤ (region.window t').remaining :=
    hwf.storedTopology_fits hpure root 0 calls config hfresh
  have hwrite := Exporter.settles_write (x := x) hwf rfl hroot hw
  rw [hfresh.cursor_window] at hwrite
  have hstorable : Block.Storable s.blocks ↔
      ∀ c ∈ g.subtree root, ∀ m, g.member? c = some m → NulFree m.texts :=
    Block.storable_blocks hpure _ calls
  by_cases hvalid : Block.Storable s.blocks
  · obtain ⟨x', hok⟩ := hwrite.1 hvalid hfit
    rw [hok]
    refine ⟨⟨fun _ => hstorable.1 hvalid, fun _ => ⟨_, rfl⟩⟩, fun e he => (by cases he), ?_⟩
    rintro tree paths ⟨⟩
    refine ⟨?_, ?_, ?_, ?_⟩
    · show 0 + s.treeSize = estimate.treeBytes
      rw [Nat.zero_add, htree]
    · show 0 + s.treeSize = estimate.treeBytes
      rw [Nat.zero_add, htree]
    · have hplaced := congrArg List.length (Block.map_component_placements 0 s.blocks)
      rw [hwf.map_id_blocks r hroot, List.length_map] at hplaced
      exact hplaced
    · rw [Window.cursor_append, hfresh.cursor_window, s.length_stored, Nat.zero_add, htree]
      exact Nat.add_le_add_left hpaths _
  · obtain ⟨e, x', w', herror, hnul⟩ := hwrite.2 fun hok => hvalid hok.1
    rw [herror]
    refine ⟨⟨fun ⟨_, hok⟩ => (by cases hok), fun hall => absurd (hstorable.2 hall) hvalid⟩, ?_, ?_⟩
    · rintro e' ⟨⟩
      exact hnul hfit
    · intro tree paths hok
      cases hok

/-- A node and a core in it, with a rule of the caller for an attribute of the core and a path that is
counted at either end.  They fit into a region of the estimated size, where a zero byte in the name of
the node makes the export fail. -/
theorem Graph.write_fits_estimate_node :
    let custom : Table := (∅ : Table).insert "load" .string
    let list (name : String) : List Edit :=
      [.addComponent none
          { id := 0, name, details := .node, attributes := .ofList [("CATcos", .u64 7)] },
        .addComponent (some 0)
          { id := 1, details := .core, attributes := .ofList [("load", .text "idle")] },
        .connect 0 1 .bidirectional]
    let g := Graph.empty.edits (list "n0")
    let refused := Graph.empty.edits (list "n\x00")
    let estimate := Estimate.ofBytes 2 125 104
    ∃ region t, Region.create { path := "node", size := estimate.fileSize } {} = (.ok region, t) ∧
      (∃ x, Exporter.size { graph := g, registry := { custom } } 0 = (.ok estimate, x) ∧
        ∃ tree paths x' w, x.write 0 (region.window t) = (.ok (tree, paths), x', w) ∧
          tree.stop = 125 ∧ tree.placements.length = 2 ∧ w.cursor ≤ 125 + 104) ∧
      ∃ x, Exporter.size { graph := refused, registry := { custom } } 0 = (.ok estimate, x) ∧
        ∃ text x' w, x.write 0 (region.window t) = (.error (.misuse (.interiorNul text)), x', w) := by
  intro custom list g refused estimate
  have hpure : custom.Pure := Table.pure_insert Table.pure_empty "load" fun _ _ => rfl
  have htotal : estimate.total < UInt64.size - pageSize.toNat := by decide
  have hestimate : Estimate.ofSubtree g { custom } 0 = estimate := by decide +kernel
  have hestimate' : Estimate.ofSubtree refused { custom } 0 = estimate := by decide +kernel
  obtain ⟨x, hsize, hwrite⟩ := Graph.write_fits_estimate (list "n0") hpure
    (show 0 < g.size by decide) (by rw [hestimate]; exact htotal)
  obtain ⟨x', hsize', hwrite'⟩ := Graph.write_fits_estimate (list "n\x00") hpure
    (show 0 < refused.size by decide) (by rw [hestimate']; exact htotal)
  rw [hestimate] at hsize hwrite
  rw [hestimate'] at hsize' hwrite'
  obtain ⟨region, t, hcreate⟩ := Region.exists_create_empty
    (show headerSize < estimate.fileSize by decide) (by decide)
  refine ⟨region, t, hcreate, ⟨x, hsize, ?_⟩, x', hsize', ?_⟩
  · have hrun := hwrite { path := "node" } {} t region hcreate
    rcases heq : x.write 0 (region.window t) with ⟨outcome, x₁, w⟩
    rw [heq] at hrun
    have htexts : ∀ m ∈ (g.subtree 0).filterMap g.member?, NulFree m.texts := by decide +kernel
    obtain ⟨⟨tree, paths⟩, rfl⟩ := hrun.1.2 fun c hc m hm =>
      htexts m (List.mem_filterMap.2 ⟨c, hc, hm⟩)
    obtain ⟨hstop, -, hplaced, hcursor⟩ := hrun.2.2 tree paths rfl
    exact ⟨tree, paths, x₁, w, rfl, hstop, hplaced, hcursor⟩
  · have hrun := hwrite' { path := "node" } {} t region hcreate
    rcases heq : x'.write 0 (region.window t) with ⟨outcome, x₁, w⟩
    rw [heq] at hrun
    cases outcome with
    | error e =>
      obtain ⟨text, rfl⟩ := hrun.2.1 e rfl
      exact ⟨text, x₁, w, rfl⟩
    | ok answer =>
      have htexts : ∃ m ∈ (refused.subtree 0).filterMap refused.member?, ¬NulFree m.texts := by
        decide +kernel
      obtain ⟨m, hm, hnul⟩ := htexts
      obtain ⟨c, hc, hm⟩ := List.mem_filterMap.1 hm
      exact absurd (hrun.1.1 ⟨answer, rfl⟩ c hc m hm) hnul

end HardwareMap
