import HardwareMap.Proofs.Export.Admission
import HardwareMap.Proofs.Import.Grafting
import HardwareMap.Proofs.Import.Renumbering

/-!
# Exporting what was imported

Without rules of a caller, exporting what was imported from an exported file writes the same bytes at
the same places again.  Nothing is left out this time, and the new file may only be shorter: paths that
led out of the exported part were counted once, and are gone.  From then on nothing changes at all: what
is imported from the new file is what it was exported from (`Graph.exportTo_importFrom`).
-/

namespace HardwareMap

/-! ## The graph that was imported -/

section Restriction

variable {g : Graph} (hwf : g.WellFormed) {root : ComponentId} (hroot : root < g.size)
  {calls : CallLog}

include hwf hroot

/-- A restriction that can be stored can be read back, and so it is a graph of one root, all of which is
in the tree under it. -/
theorem Graph.WellFormed.restrict_of_storable {r : Registry} (hpure : r.custom.Pure)
    (hdecodes : r.custom.Decodes)
    (hstorable : Block.Storable (g.storedTopology r root 0 calls).blocks)
    (hlen : (g.storedTopology r root 0 calls).stored.length < UInt64.size) :
    (g.restrict r root).WellFormed ∧ 0 < (g.restrict r root).size ∧
      (g.restrict r root).subtree 0 = List.range (g.restrict r root).size := by
  have hrun := Importer.run_storedTopology hwf hpure hdecodes hroot hlen hstorable
    ⟨[], [], (List.append_nil _).symm, rfl⟩ 0
  obtain ⟨index, -, -, -, hwf', hroots, hsize, hsubtree, -⟩ := exists_tree_of_run (Prod.ext hrun rfl)
  refine ⟨hwf', ((hwf'.toForest.mem_roots 0).1 ?_).1, ?_⟩
  · rw [hroots]
    exact List.mem_cons_self
  · rw [hsize]
    exact hsubtree

/-- The file of a restriction that is exported without rules of a caller: what was stored of the graph
that it was made of, in as many pages as are estimated for the restriction. -/
def Graph.refile (g : Graph) (root : ComponentId) (calls : CallLog) : Bytes :=
  let s := g.storedTopology {} root 0 calls
  let fileSize := (Estimate.ofSubtree (g.restrict {} root) {} 0).fileSize
  Region.fileOf (s.stored ++ Bytes.zeros (fileSize - headerSize - s.stored.length))

/-- Whoever exports a restriction writes the same bytes again and leaves nothing out. -/
theorem Graph.WellFormed.refile_of_exportTo (calls : CallLog) (hwf' : (g.restrict {} root).WellFormed)
    (hsubtree : (g.restrict {} root).subtree 0 = List.range (g.restrict {} root).size)
    {path : String} {t t' : FileTree} {publication : Publication}
    (h : (g.restrict {} root).exportTo path 0 ∅ t = (.ok publication, t')) :
    t'.read? path = some (g.refile root calls) ∧
      publication.report.dropped = [] ∧ publication.report.orphaned = 0 ∧
      publication.report.bytesWritten = (g.storedTopology {} root 0 calls).stored.length ∧
      publication.report.pathOffset = (g.storedTopology {} root 0 calls).treeSize := by
  have hpure : Table.Pure ∅ := Table.pure_empty
  obtain ⟨-, hroot', calls', hexported, hreported⟩ := hwf'.reported_of_exportTo h
  let s' := (g.restrict {} root).storedTopology {} 0 0 calls'
  have hstored : s'.stored = (g.storedTopology {} root 0 calls).stored :=
    hwf.stored_restrict hpure hroot hsubtree calls' calls Registry.restores_catalog
  refine ⟨?_, ?_, ?_, ?_, ?_⟩
  · rw [hexported.read?_eq, hwf'.estimate_of_exportTo hpure h]
    rw [show ((g.restrict {} root).storedTopology { custom := ∅ } 0 0 calls').stored = _ from hstored]
    rfl
  · obtain ⟨hblocks, hpaths⟩ :=
      hwf.dropped_restrict hpure hroot hsubtree calls' Registry.restores_catalog
    rw [hreported.dropped_eq]
    exact congrArg₂ (· ++ ·) hblocks hpaths
  · have hinner := hwf.innerPaths_restrict hroot hsubtree
    have htouching := (g.restrict {} root).length_touchingPaths ((g.restrict {} root).subtree 0)
    have hle : ((g.restrict {} root).touchingPaths ((g.restrict {} root).subtree 0)).length ≤
        (g.restrict {} root).livePathList.length := List.length_filter_le _ _
    -- No path is left to lead out, since all are inside.
    rw [hwf'.orphaned_of_reported hroot' hreported]
    rw [htouching, hinner] at hle
    omega
  · rw [hexported.bytesWritten_eq]
    exact congrArg List.length hstored
  · rw [hexported.pathOffset_eq]
    exact hwf.treeSize_restrict hpure hroot hsubtree calls' calls Registry.restores_catalog

/-- A restriction has no other texts than the graph that it was made of. -/
theorem Graph.WellFormed.nulFree_restrict
    (hsubtree : (g.restrict {} root).subtree 0 = List.range (g.restrict {} root).size)
    (hstorable : Block.Storable (g.storedTopology {} root 0 calls).blocks) :
    ∀ c ∈ (g.restrict {} root).subtree 0, ∀ m, (g.restrict {} root).member? c = some m →
      NulFree m.texts := by
  have hpure : Table.Pure ∅ := Table.pure_empty
  refine (Block.storable_blocks (r := {}) hpure _ ∅).1 ?_
  rw [show ((g.restrict {} root).blocks {} ((g.restrict {} root).subtree 0) ∅).1 = _ from
    hwf.blocks_restrict hpure hroot hsubtree ∅ calls]
  intro b hb
  obtain ⟨origin, horigin, rfl⟩ := List.mem_map.1 hb
  exact hstorable origin horigin

end Restriction

/-- **Exporting what was imported**: without rules of a caller, whatever is exported from a graph that
was imported from an exported file goes wherever an export can go, leaves out no attribute and no path,
and writes the same bytes, with the paths at the same offset.  All such exports give the same file, from
which the same graph is imported again. -/
theorem Graph.exportTo_importFrom {g : Graph} (hwf : g.WellFormed) {path : String}
    {root : ComponentId} {t t' : FileTree} {publication : Publication}
    (h : g.exportTo path root ∅ t = (.ok publication, t')) :
    ∃ g₁ file file₁, t'.read? path = some file ∧ t'.Admits path ∧
      (∀ (path₁ : String) (s : FileTree), s.read? path₁ = some file →
        importFrom path₁ ∅ s = .ok g₁) ∧
      g₁.root? = some 0 ∧
      (∀ (path₁ : String) (s : FileTree), s.Admits path₁ →
        ∃ publication₁ s₁, g₁.exportTo path₁ 0 ∅ s = (.ok publication₁, s₁) ∧
          s₁.read? path₁ = some file₁ ∧
          publication₁.report.dropped = [] ∧ publication₁.report.orphaned = 0 ∧
          publication₁.report.bytesWritten = publication.report.bytesWritten ∧
          publication₁.report.pathOffset = publication.report.pathOffset) ∧
      file₁.slice headerSize publication.report.bytesWritten =
        file.slice headerSize publication.report.bytesWritten ∧
      ∀ (path₁ : String) (s : FileTree), s.read? path₁ = some file₁ →
        importFrom path₁ ∅ s = .ok g₁ := by
  have hpure : Table.Pure ∅ := Table.pure_empty
  have hdecodes : Table.Decodes ∅ := Table.decodes_empty
  obtain ⟨-, hroot, calls, hexported⟩ := hwf.exported_of_exportTo h
  have hstorable := hexported.storable
  have hwritten := hexported.bytesWritten_eq
  have hfile := hexported.length_fileOf
  have hfit := hexported.length_le
  have hmax := hexported.fileSize_lt
  have hword := hexported.fileSize_lt_size
  have hread := hexported.read?_eq
  rw [hwf.estimate_of_exportTo hpure h] at hmax hword hfit hfile hread
  obtain ⟨hwf', hroot', hsubtree⟩ := hwf.restrict_of_storable (r := {}) hroot hpure hdecodes
    hstorable (by omega)
  -- The restriction needs no more pages than the graph did.
  have hle := hwf.total_restrict_le hpure hroot Registry.restores_catalog hsubtree
  have hmax' : (Estimate.ofSubtree (g.restrict {} root) {} 0).fileSize < Region.maxFileSize :=
    Nat.lt_of_le_of_lt (wholePages_mono hle) hmax
  have hword' : (Estimate.ofSubtree (g.restrict {} root) {} 0).total <
      UInt64.size - pageSize.toNat :=
    Nat.lt_of_le_of_lt (le_wholePages _) (Nat.lt_trans hmax' (by decide))
  refine ⟨g.restrict {} root, _, g.refile root calls, hread, admits_of_exportTo h, ?_, rfl, ?_, ?_, ?_⟩
  · intro path₁ s hread₁
    rw [Region.length_fileOf] at hfile
    exact hwf.importFrom_of_stored hpure hdecodes hroot hstorable (hfile.trans_lt hword)
      ⟨[], _, rfl, rfl⟩ hread₁
  · intro path₁ s hadmits
    obtain ⟨publication₁, s₁, hexport⟩ := hwf'.exists_exportTo_of_admits hpure hroot' hword' hmax'
      (hwf.nulFree_restrict hroot hsubtree hstorable) hadmits
    obtain ⟨hread₁, hdropped, horphaned, hwritten₁, hoffset₁⟩ :=
      hwf.refile_of_exportTo hroot calls hwf' hsubtree hexport
    exact ⟨publication₁, s₁, hexport, hread₁, hdropped, horphaned, hwritten₁.trans hwritten.symm,
      hoffset₁.trans hexported.pathOffset_eq.symm⟩
  · rw [hwritten, Graph.refile, Region.slice_fileOf]
    exact (Region.slice_fileOf _ _).symm
  · intro path₁ s hread₁
    refine hwf.importFrom_of_stored hpure hdecodes hroot hstorable ?_ ⟨[], _, rfl, rfl⟩ hread₁
    have hlimit : Region.maxFileSize < UInt64.size := by decide
    rw [List.nil_append, List.length_append, Bytes.length_zeros]
    omega

/-- A node with an attribute that no rule accepts and a path that leads out of it, exported over its own
file after it was imported. -/
theorem Graph.exportTo_importFrom_node :
    let g := Graph.empty.edits
      [.addComponent none { id := 0, details := .node, attributes := .ofList [("note", .u64 7)] },
        .addComponent none { id := 1, details := .node }, .connect 0 1 .oriented]
    ∃ publication t, g.exportTo "node" 0 ∅ {} = (.ok publication, t) ∧
      ∃ g₁ publication₁ t₁, importFrom "node" ∅ t = .ok g₁ ∧
        g₁.exportTo "node" 0 ∅ t = (.ok publication₁, t₁) ∧
        publication₁.report.dropped = [] ∧ publication₁.report.orphaned = 0 ∧
        importFrom "node" ∅ t₁ = .ok g₁ := by
  intro g
  have hwf : g.WellFormed := WellFormed.empty.edits _
  have hroot : 0 < g.size := by decide
  have hestimate : Estimate.ofSubtree g {} 0 = .ofBytes 1 37 56 := rfl
  have htexts : ∀ c ∈ g.subtree 0, ∀ m, g.member? c = some m → NulFree m.texts := by
    intro c hc m hm
    rw [show g.subtree 0 = [0] from rfl, List.mem_singleton] at hc
    subst hc
    cases hm
    unfold NulFree
    decide
  have hadmits : ({} : FileTree).Admits "node" :=
    ⟨by decide, rfl, FileTree.writableAt_of_vacant (show _ = some ["node.partial"] from rfl) rfl,
      rfl, ⟨["node"], rfl, by decide⟩⟩
  obtain ⟨publication, t, hexport⟩ := hwf.exists_exportTo_of_admits Table.pure_empty hroot
    (by rw [hestimate]; decide) (by rw [hestimate]; decide) htexts hadmits
  obtain ⟨g₁, file, file₁, hread, hagain, himport, -, hreexport, -, himport₁⟩ :=
    Graph.exportTo_importFrom hwf hexport
  obtain ⟨publication₁, t₁, hexport₁, hread₁, hdropped, horphaned, -, -⟩ :=
    hreexport "node" t hagain
  exact ⟨publication, t, hexport, g₁, publication₁, t₁, himport "node" t hread, hexport₁,
    hdropped, horphaned, himport₁ "node" t₁ hread₁⟩

end HardwareMap
