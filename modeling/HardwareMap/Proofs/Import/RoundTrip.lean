import HardwareMap.Import.Topology
import HardwareMap.Proofs.Export.File
import HardwareMap.Proofs.Import.Restriction
import HardwareMap.Proofs.Import.Safety

/-!
# From an export to an import

A region that holds a stored topology is read back as the restriction of the graph that it was
stored from (`Importer.run_storedTopology`).  An export that succeeds leaves such a region behind its
path, so an import of that path answers with the restriction (`Graph.importFrom_exportTo`).
-/

namespace HardwareMap

/-! ## Reading a stored topology -/

/-- A registry has a value for every payload that a topology stores. -/
structure StoredTopology.Unpackable (s : StoredTopology) (r : Registry) : Prop where
  blocks : ∀ b ∈ s.blocks, r.Unpackable b.attributes.packed
  paths : ∀ b ∈ s.paths, r.Unpackable b.attributes.packed

/-- What a registry packs it can unpack again, if the rules of the caller decode their own
payloads. -/
theorem Graph.unpackable_storedTopology (g : Graph) {r : Registry} (hdecodes : r.custom.Decodes)
    (root : ComponentId) (start : Nat) (calls : CallLog) :
    (g.storedTopology r root start calls).Unpackable r where
  blocks b hb := by
    obtain ⟨-, -, earlier, hpacked⟩ := Block.exists_packAll_of_mem hb
    rw [hpacked]
    exact Registry.unpackable_packAll hdecodes _ earlier
  paths b hb := by
    obtain ⟨-, earlier, hpacked⟩ := PathBlock.exists_packAll_of_mem hb
    rw [hpacked]
    exact Registry.unpackable_packAll hdecodes _ earlier

theorem Block.readable_of_mem {g : Graph} {r r' : Registry} {order : List ComponentId}
    {calls : CallLog} {b : Block} (hstorable : Storable (g.blocks r order calls).1)
    (hb : b ∈ (g.blocks r order calls).1) (hunpackable : r'.Unpackable b.attributes.packed) :
    b.Readable g r' := by
  obtain ⟨-, hmember, earlier, hpacked⟩ := exists_packAll_of_mem hb
  exact {
    member_eq := hmember
    texts_free := hstorable b hb
    names_free := by
      rw [hpacked]
      exact r.nulFree_packAll b.member.attributes.entries earlier
    unpackable := hunpackable }

theorem Block.minSize_le_size (b : Block) : Component.minSize ≤ b.size := by
  have hname : 1 ≤ Utf8.storedSize b.member.name := Nat.le_add_left 1 _
  have hattributes : wordSize ≤ (Attributes.storedSection b.attributes.packed).length := by
    rw [Attributes.length_storedSection]
    exact Nat.le_add_right _ _
  simp only [Component.minSize, size, tableOffset, Component.recordSize]
  omega

section Stored

variable {g : Graph} {r r' : Registry} {root : ComponentId} {calls : CallLog}
  (hwf : g.WellFormed)

include hwf

/-- Reading the tree that a region starts with. -/
theorem TreeIndex.readTasks_storedTopology (hroot : root < g.size) {bytes : Bytes}
    (hlen : bytes.length < UInt64.size) :
    let s := g.storedTopology r root 0 calls
    s.Unpackable r' → Block.Storable s.blocks → bytes.Holds 0 s.stored → ∀ cursor,
      ∃ index graph cursor',
        readTasks r' bytes [{ offset := 0, parent := none }] {} ⟨.empty, cursor⟩ =
          .ok index ⟨graph, cursor'⟩ ∧
        Rebuilt g r' root s.place s.blocks s.blocks [] index graph ∧ index.stop = s.treeSize := by
  intro s hunpackable hstorable hholds cursor
  have hv := hwf.toForest.visits_subtree hroot
  have hids := hwf.map_id_blocks r hroot 0 calls
  have hnodup := hwf.nodup_blocks r hroot 0 calls
  have hplaced : Block.Placed s.place 0 s.blocks := Block.placed_place hnodup
  have hrootBlock : ∀ b ∈ s.blocks, root ≤ b.id := fun b hb => by
    have hmem : b.id ∈ g.subtree root := by
      rw [← hids]
      exact List.mem_map_of_mem hb
    exact hwf.toForest.le_of_mem_visits hv hmem
  have hfirst : s.place root = 0 := by
    obtain ⟨b, rest, hblocks, hid⟩ := hwf.blocks_eq_cons r hroot 0 calls
    rw [hblocks] at hplaced
    rw [← hid]
    exact hplaced.1
  have htask : [root].map (taskOf g root s.place s.blocks) =
      [{ offset := 0, parent := none }] := by
    rw [List.map_singleton, taskOf, hfirst, newParent, if_pos rfl]
  obtain ⟨index, graph, cursor', hread, hrebuilt, hstop⟩ :=
    readTasks_rebuilds hwf.toForest hlen (Block.holds_of_placed hplaced hholds.left)
      (fun b hb => Block.readable_of_mem hstorable hb (hunpackable.blocks b hb)) hnodup hrootBlock
      hv hids (List.nil_append _).symm hplaced (fun c hc => .inl (List.mem_singleton.1 hc)) cursor
      (rebuilt_empty g r' root s.place s.blocks) rfl
  rw [htask] at hread
  exact ⟨index, graph, cursor', hread, hrebuilt, hstop.trans (Nat.zero_add _)⟩

/-- Reading the paths behind the tree that a region starts with. -/
theorem TreeIndex.intakePaths_storedTopology (hroot : root < g.size) {bytes : Bytes}
    (hlen : bytes.length < UInt64.size) :
    let s := g.storedTopology r root 0 calls
    s.Unpackable r' → bytes.Holds 0 s.stored → ∀ {index : TreeIndex} {graph : Graph},
      Rebuilt g r' root s.place s.blocks s.blocks [] index graph → ∀ cursor,
        ∃ graph', intakePaths r' index.offsets s.treeSize bytes ⟨graph, cursor⟩ =
            .ok s.paths.length ⟨graph', s.stored.length⟩ ∧
          graph.Extended (s.paths.map (·.decoded r' (number s.blocks))) graph' := by
  intro s hunpackable hholds index graph h cursor
  let order := g.subtree root
  have hids := hwf.map_id_blocks r hroot 0 calls
  have hplaced : Block.Placed s.place 0 s.blocks := Block.placed_place (hwf.nodup_blocks r hroot 0 calls)
  have hknown : ∀ c ∈ order, index.offsets.get? (s.place c) = some (number s.blocks c) ∧
      s.place c < UInt64.size ∧ number s.blocks c < graph.size := by
    intro c hc
    rw [show order = _ from hids.symm] at hc
    obtain ⟨b, hb, rfl⟩ := List.mem_map.1 hc
    have hle := (Block.holds_of_placed hplaced hholds.left b hb).le
    refine ⟨h.get?_eq b hb, by omega, ?_⟩
    rw [h.size_eq]
    exact number_lt (List.append_nil _).symm hb
  have hends : ∀ b ∈ s.paths, b.path.source ∈ order ∧ b.path.target ∈ order := by
    intro b hb
    obtain ⟨hentry, -⟩ := PathBlock.exists_packAll_of_mem hb
    exact (Graph.mem_innerPaths.1 hentry).2
  have hreadable : ∀ b ∈ s.paths, b.Readable r' s.place (number s.blocks) index.offsets := by
    intro b hb
    obtain ⟨hsource, htarget⟩ := hends b hb
    obtain ⟨-, earlier, hpacked⟩ := PathBlock.exists_packAll_of_mem hb
    exact {
      names_free := by
        rw [hpacked]
        exact r.nulFree_packAll b.path.attributes.entries earlier
      unpackable := hunpackable.paths b hb
      source_eq := (hknown _ hsource).1
      target_eq := (hknown _ htarget).1
      source_lt := (hknown _ hsource).2.1
      target_lt := (hknown _ htarget).2.1 }
  have hsection := hholds.right
  rw [Block.length_storedList, Nat.zero_add] at hsection
  have hlive : graph.livePaths = 0 := by
    rw [h.wellFormed.livePaths_eq, Graph.length_livePathList, h.paths_eq]
    rfl
  rw [s.length_stored]
  exact intakePaths_eq hlen hreadable (fun b hb => (hknown _ (hends b hb).1).2.2)
    (fun b hb => (hknown _ (hends b hb).2).2.2) hsection h.wellFormed hlive cursor

/-- A region that starts with a stored topology is read up to the end of it. -/
theorem Importer.run_eq_rebuilt (hroot : root < g.size) {bytes : Bytes}
    (hlen : bytes.length < UInt64.size) :
    let s := g.storedTopology r root 0 calls
    s.Unpackable r' → Block.Storable s.blocks → bytes.Holds 0 s.stored → ∀ cursor,
      ∃ index graph graph', Importer.run { registry := r' } bytes cursor =
          (.ok graph', s.stored.length) ∧
        TreeIndex.Rebuilt g r' root s.place s.blocks s.blocks [] index graph ∧
        graph.Extended (s.paths.map (·.decoded r' (TreeIndex.number s.blocks))) graph' := by
  intro s hunpackable hstorable hholds cursor
  obtain ⟨index, graph, cursor₁, hread, hrebuilt, hstop⟩ :=
    TreeIndex.readTasks_storedTopology hwf hroot hlen hunpackable hstorable hholds cursor
  obtain ⟨graph', hpaths, hextended⟩ :=
    TreeIndex.intakePaths_storedTopology hwf hroot hlen hunpackable hholds hrebuilt cursor₁
  have hroom : ¬ bytes.length < Component.minSize := by
    obtain ⟨b, rest, hblocks, -⟩ := hwf.blocks_eq_cons r hroot 0 calls
    have htree : s.treeSize = b.size + Block.sizes rest := congrArg Block.sizes hblocks
    have hle := hholds.le
    have hmin := b.minSize_le_size
    rw [s.length_stored] at hle
    omega
  have hheader : Importer.readHeader { registry := r' } bytes =
      (.ok (), { registry := r', phase := .readingHeader }) := by
    simp only [readHeader, enter, if_true, if_neg hroom]
  refine ⟨index, graph, graph', ?_, hrebuilt, hextended⟩
  simp only [run, hheader, readTree, intaking, enter, if_true, hread, readPaths, hstop, hpaths]
  rfl

/-- With the rules that it was stored with, it is read as the restriction of its graph. -/
theorem Importer.run_storedTopology (hpure : r.custom.Pure) (hdecodes : r.custom.Decodes)
    (hroot : root < g.size) {bytes : Bytes} (hlen : bytes.length < UInt64.size) :
    let s := g.storedTopology r root 0 calls
    Block.Storable s.blocks → bytes.Holds 0 s.stored → ∀ cursor,
      (Importer.run { registry := r } bytes cursor).1 = .ok (g.restrict r root) := by
  intro s hstorable hholds cursor
  obtain ⟨index, graph, graph', hrun, hrebuilt, hextended⟩ := run_eq_rebuilt hwf hroot hlen
    (g.unpackable_storedTopology hdecodes root 0 calls) hstorable hholds cursor
  rw [hrun, hrebuilt.eq_restrict hwf hpure hroot 0 calls hextended]

end Stored

/-! ## The file between an export and an import -/

/-- An export that succeeds leaves a file behind its path that starts with the stored topology. -/
theorem Graph.WellFormed.stored_of_exportTo {g : Graph} (hwf : g.WellFormed) {custom : Table}
    {root : ComponentId} {path : String} {t t' : FileTree} {publication : Publication}
    (h : g.exportTo path root custom t = (.ok publication, t')) :
    root < g.size ∧ ∃ calls bytes,
      t'.read? path = some (Region.fileOf bytes) ∧ headerSize + bytes.length < UInt64.size ∧
      Block.Storable (g.storedTopology { custom } root 0 calls).blocks ∧
      bytes.Holds 0 (g.storedTopology { custom } root 0 calls).stored := by
  obtain ⟨-, hroot, calls, hexported⟩ := hwf.exported_of_exportTo h
  refine ⟨hroot, calls, _, hexported.read?_eq, ?_, hexported.storable, [], _, rfl, rfl⟩
  rw [← Region.length_fileOf, hexported.length_fileOf]
  exact hexported.fileSize_lt_size

/-- Whoever imports the file of an export runs on a region that starts with the stored topology. -/
theorem StoredTopology.Exported.importFrom_eq {s : StoredTopology} {path : String}
    {report : ExportReport} {t : FileTree} (h : s.Exported path report t) :
    ∃ bytes : Bytes, bytes.length < UInt64.size ∧ bytes.Holds 0 s.stored ∧
      ∀ (path' : String) (custom : Table) (t' : FileTree), t'.read? path' = t.read? path →
        Graph.importFrom path' custom t' =
          (Importer.run { registry := { custom } } bytes 0).1 := by
  have hlen := h.fileSize_lt_size
  rw [← h.length_fileOf, Region.length_fileOf] at hlen
  refine ⟨_, Nat.lt_of_le_of_lt (Nat.le_add_left _ _) hlen, ⟨[], _, rfl, rfl⟩, ?_⟩
  intro path' custom t' hread
  exact Graph.importFrom_of_fileOf (hread.trans h.read?_eq) hlen

/-- A file that starts with a stored topology is imported as the restriction, whatever comes after. -/
theorem Graph.WellFormed.importFrom_of_stored {g : Graph} (hwf : g.WellFormed) {custom : Table}
    (hpure : custom.Pure) (hdecodes : custom.Decodes) {root : ComponentId} (hroot : root < g.size)
    {calls : CallLog} (hstorable : Block.Storable (g.storedTopology { custom } root 0 calls).blocks)
    {bytes : Bytes} (hlen : headerSize + bytes.length < UInt64.size)
    (hholds : bytes.Holds 0 (g.storedTopology { custom } root 0 calls).stored) {path : String}
    {t : FileTree} (hread : t.read? path = some (Region.fileOf bytes)) :
    importFrom path custom t = .ok (g.restrict { custom } root) := by
  rw [importFrom_of_fileOf hread hlen]
  exact Importer.run_storedTopology (r := { custom }) hwf hpure hdecodes hroot
    (Nat.lt_of_le_of_lt (Nat.le_add_left _ _) hlen) hstorable hholds 0

theorem Graph.WellFormed.importFrom_of_exportTo {g : Graph} (hwf : g.WellFormed) {custom : Table}
    (hpure : custom.Pure) (hdecodes : custom.Decodes) {root : ComponentId} {path : String}
    {t t' : FileTree} {publication : Publication}
    (h : g.exportTo path root custom t = (.ok publication, t')) :
    importFrom path custom t' = .ok (g.restrict { custom } root) := by
  obtain ⟨hroot, calls, bytes, hread, hlen, hstorable, hholds⟩ := hwf.stored_of_exportTo h
  exact hwf.importFrom_of_stored hpure hdecodes hroot hstorable hlen hholds hread

/-- **Round trip**: if an export with pure encoders succeeds then an import of its path with the same
rules succeeds, and answers with the restriction of the graph to what was exported. -/
theorem Graph.importFrom_exportTo (list : List Edit) {custom : Table} (hpure : custom.Pure)
    (hdecodes : custom.Decodes) (root : ComponentId) (path : String) {t t' : FileTree}
    {publication : Publication}
    (h : (Graph.empty.edits list).exportTo path root custom t = (.ok publication, t')) :
    Graph.importFrom path custom t' = .ok ((Graph.empty.edits list).restrict { custom } root) :=
  (WellFormed.empty.edits list).importFrom_of_exportTo hpure hdecodes h

/-- A node with a core in it and a path between them comes back from a file. -/
theorem Graph.importFrom_exportTo_node :
    let g := Graph.empty.edits
      [.addComponent none { id := 0, name := "n0", details := .node },
        .addComponent (some 0) { id := 1, details := .core }, .connect 1 0 .oriented]
    ∃ publication t, g.exportTo "node" 0 ∅ {} = (.ok publication, t) ∧
      Graph.importFrom "node" ∅ t = .ok (g.restrict { custom := ∅ } 0) := by
  intro g
  have hwf : g.WellFormed := WellFormed.empty.edits _
  have hestimate : Estimate.ofSubtree g { custom := ∅ } 0 = .ofBytes 2 84 104 := rfl
  have htexts : ∀ m ∈ (g.subtree 0).filterMap g.member?, NulFree m.texts := by decide +kernel
  obtain ⟨publication, t, hexport⟩ := hwf.exists_exportTo_of_estimate Table.pure_empty
    (show 0 < 2 by decide) hestimate (by decide) (by decide) (by decide) htexts
  exact ⟨publication, t, hexport,
    Graph.importFrom_exportTo _ Table.pure_empty Table.decodes_empty 0 "node" hexport⟩

end HardwareMap
