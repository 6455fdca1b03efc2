import HardwareMap.Export.Publication
import HardwareMap.Proofs.Export.Format
import HardwareMap.Proofs.Region.Staging

/-!
# The file of an export

An export that succeeds leaves behind its path a file with a header, the stored topology and zeros up
to the estimated size (`Graph.WellFormed.exported_of_exportTo`).  The bytes of the stored topology are
those that the format specifies for what was exported, whatever else there is in the graph
(`Graph.read?_exportTo`).
-/

namespace HardwareMap

/-! ## What an export leaves behind -/

/-- A stored topology fills the region of a file from its start on, the rest of which is zero.  The
report of the export tells its extents. -/
structure StoredTopology.Exported (s : StoredTopology) (path : String) (report : ExportReport)
    (t : FileTree) : Prop where
  storable : Block.Storable s.blocks
  bytesWritten_eq : report.bytesWritten = s.stored.length
  pathOffset_eq : report.pathOffset = s.treeSize
  length_le : headerSize + s.stored.length ≤ report.estimate.fileSize
  fileSize_lt : report.estimate.fileSize < Region.maxFileSize
  read?_eq : t.read? path = some
    (Region.fileOf (s.stored ++ Bytes.zeros (report.estimate.fileSize - headerSize - s.stored.length)))

namespace StoredTopology.Exported

variable {s : StoredTopology} {path : String} {report : ExportReport} {t : FileTree}
  (h : s.Exported path report t)

include h

theorem length_fileOf :
    (Region.fileOf (s.stored ++
      Bytes.zeros (report.estimate.fileSize - headerSize - s.stored.length))).length =
        report.estimate.fileSize := by
  have hle := h.length_le
  rw [Region.length_fileOf, List.length_append, Bytes.length_zeros]
  omega

theorem fileSize_lt_size : report.estimate.fileSize < UInt64.size := by
  have hmax : Region.maxFileSize < UInt64.size := by decide
  exact Nat.lt_trans h.fileSize_lt hmax

theorem exists_holds : ∃ file, t.read? path = some file ∧ file.Holds headerSize s.stored :=
  ⟨_, h.read?_eq, _, _, rfl, Word.length_toBytes _⟩

/-- The stored topology fills the region up to where it is written. -/
theorem slice_stored :
    ∃ file, t.read? path = some file ∧ file.slice headerSize report.bytesWritten = s.stored := by
  obtain ⟨file, hread, hstored⟩ := h.exists_holds
  rw [h.bytesWritten_eq]
  exact ⟨file, hread, hstored.slice_eq⟩

/-- The paths fill the region from the reported offset on up to where it is written. -/
theorem slice_paths :
    ∃ file, t.read? path = some file ∧
      file.slice (headerSize + report.pathOffset) (report.bytesWritten - report.pathOffset) =
        PathBlock.storedSection s.place s.paths := by
  obtain ⟨file, hread, hstored⟩ := h.exists_holds
  refine ⟨file, hread, ?_⟩
  have htree : (Block.storedList s.place s.start s.blocks).length = s.treeSize :=
    Block.length_storedList ..
  have hlength : report.bytesWritten - report.pathOffset =
      (PathBlock.storedSection s.place s.paths).length := by
    rw [h.bytesWritten_eq, h.pathOffset_eq, s.length_stored, Nat.add_sub_cancel_left]
    exact (PathBlock.length_storedSection ..).symm
  have hpaths := hstored.right
  rw [htree, ← h.pathOffset_eq] at hpaths
  rw [hlength]
  exact hpaths.slice_eq

end StoredTopology.Exported

/-- Only a known component can be sized, and this changes nothing but the phase and the calls. -/
theorem Exporter.of_size {x x' : Exporter} {root : ComponentId} {estimate : Estimate}
    (h : x.size root = (.ok estimate, x')) :
    root < x.graph.size ∧ ∃ calls, x' = { x with phase := .sizing, calls } := by
  unfold size enter at h
  by_cases hphase : x.phase = .idle
  · rw [if_pos hphase] at h
    simp only [Graph.estimate] at h
    by_cases hroot : root < x.graph.members.size
    · rw [if_pos hroot] at h
      obtain ⟨-, rfl⟩ := Prod.mk.inj h
      exact ⟨hroot, _, rfl⟩
    · rw [if_neg hroot] at h
      cases h
  · rw [if_neg hphase] at h
    cases h

/-- The first sizing of an export gives what is needed, and leaves the calls that it counted. -/
theorem Exporter.needed_of_size {g : Graph} {r : Registry} {root : ComponentId}
    {estimate : Estimate} {x : Exporter}
    (h : Exporter.size { graph := g, registry := r } root = (.ok estimate, x)) :
    g.needed r root ∅ = estimate ∧
      x.calls = (Estimate.listBytes g r (g.subtree root) ∅).2 := by
  have hroot : root < g.size := (of_size h).1
  simp only [size, enter, if_true, Graph.estimate_eq_outcome hroot] at h
  obtain ⟨houtcome, rfl⟩ := Prod.mk.inj h
  exact ⟨(Estimate.outcome_eq_ok.1 houtcome).2, rfl⟩

/-- What was sized has room after its header. -/
theorem Exporter.headerSize_lt_of_size {g : Graph} {r : Registry} {root : ComponentId}
    {estimate : Estimate} {x : Exporter}
    (h : Exporter.size { graph := g, registry := r } root = (.ok estimate, x)) :
    headerSize < estimate.fileSize := by
  obtain ⟨rfl, -⟩ := needed_of_size h
  have htotal : headerSize < (g.needed r root ∅).total := by
    simp only [Graph.needed, Estimate.ofBytes, wordSize]
    omega
  exact Nat.lt_of_lt_of_le htotal (le_wholePages _)

/-- What is written to a new region is followed by zeros. -/
theorem Region.Fresh.append_eq {config : RegionConfig} {region : Region} {t : FileTree}
    (h : Fresh config region t) {data : Bytes} (hfit : data.length ≤ (region.window t).remaining) :
    ((region.window t).append data).bytes =
        data ++ Bytes.zeros (config.size - headerSize - data.length) ∧
      headerSize + data.length ≤ config.size := by
  have hsize := h.size_lt.1
  rw [h.window_eq] at hfit ⊢
  simp only [Window.remaining, Window.size, Bytes.length_zeros, Nat.sub_zero] at hfit
  refine ⟨?_, by omega⟩
  simp only [Window.append, Bytes.splice_eq, List.take_zero, List.nil_append, Nat.zero_add,
    Bytes.zeros, List.drop_replicate]

/-- What a report tells of a stored topology besides its extents. -/
structure StoredTopology.Reported (s : StoredTopology) (g : Graph) (report : ExportReport) :
    Prop where
  components_eq : report.components = s.blocks.length
  paths_eq : report.paths = s.paths.length
  orphaned_eq : report.orphaned =
    (PendingPaths.ofPlacements g (Block.placements 0 s.blocks)).size - s.paths.length
  dropped_eq : report.dropped = Block.dropped s.blocks ++ PathBlock.dropped s.paths

/-- Written are the paths with both ends in the subtree. -/
theorem StoredTopology.Reported.paths_eq_length {g : Graph} {r : Registry} {root : ComponentId}
    {start : Nat} {calls : CallLog} {report : ExportReport}
    (h : (g.storedTopology r root start calls).Reported g report) :
    report.paths = (g.innerPaths (g.subtree root)).length := by
  rw [h.paths_eq]
  exact PathBlock.length_ofPaths ..

section Success

variable {g : Graph} (hwf : g.WellFormed) {custom : Table} {root : ComponentId} {path : String}
  {t t' : FileTree}

include hwf

/-- An export that succeeds has sized the subtree, leaves what is stored of it after the calls of sizing
in its file, and reports it. -/
theorem Graph.WellFormed.sized_of_exportTo {publication : Publication}
    (h : g.exportTo path root custom t = (.ok publication, t')) :
    ∃ x, Exporter.size { graph := g, registry := { custom } } root =
        (.ok publication.report.estimate, x) ∧ root < g.size ∧
      (g.storedTopology { custom } root 0 x.calls).Exported path publication.report t' ∧
      (g.storedTopology { custom } root 0 x.calls).Reported g publication.report := by
  unfold exportTo at h
  simp only at h
  split at h
  · cases h
  next estimate x hsize =>
    obtain ⟨hroot, calls, rfl⟩ := Exporter.of_size hsize
    split at h
    · cases h
    next region t₁ hcreate =>
      have hfresh := Region.fresh_of_create hcreate
      let w := region.window t₁
      have hw : w.Writable := hfresh.writable
      have hcursor : w.cursor = 0 := hfresh.cursor_window
      have hwrite := Exporter.settles_write
        (x := { graph := g, registry := { custom }, phase := .sizing, calls }) hwf rfl hroot hw
      rw [hcursor] at hwrite
      let s := g.storedTopology { custom } root 0 calls
      by_cases hgood : Block.Storable s.blocks ∧ s.stored.length ≤ w.remaining
      · obtain ⟨x', hrun⟩ := hwrite.1 hgood.1 hgood.2
        rw [hrun] at h
        simp only at h
        split at h
        · cases h
        next region' t₂ hpublish =>
          cases h
          obtain ⟨hbytes, hle⟩ := hfresh.append_eq hgood.2
          have hlen : (w.append s.stored).bytes.length = estimate.fileSize - headerSize := by
            rw [Window.length_append hw hgood.2]
            show (region.window t₁).bytes.length = _
            rw [hfresh.window_eq, Bytes.length_zeros]
          obtain ⟨hlookup, hcontents, hmay⟩ := hfresh.lookup_publish hpublish
          rw [hfresh.contents_store hlen, hbytes] at hcontents
          have hreads := (hmay ownerReads).trans
            ((Region.readable_of_create hcreate).trans (RegionConfig.readable_default _ _ t))
          refine ⟨_, hsize, hroot, ?_, ?_⟩
          · exact {
              storable := hgood.1
              bytesWritten_eq := by rw [Window.cursor_append, hcursor, Nat.zero_add]
              pathOffset_eq := Nat.zero_add _
              length_le := hle
              fileSize_lt := hfresh.size_lt.2
              read?_eq := FileTree.read?_eq_some.2 ⟨region.file, hlookup, hreads, hcontents⟩ }
          · have hplaced := congrArg List.length (Block.map_component_placements 0 s.blocks)
            rw [List.length_map, List.length_map] at hplaced
            exact {
              components_eq := hplaced
              paths_eq := rfl
              orphaned_eq := rfl
              dropped_eq := rfl }
      · obtain ⟨e, x', w', hrun, -⟩ := hwrite.2 hgood
        rw [hrun] at h
        cases h

theorem Graph.WellFormed.reported_of_exportTo {publication : Publication}
    (h : g.exportTo path root custom t = (.ok publication, t')) :
    (Exporter.size { graph := g, registry := { custom } } root).1 = .ok publication.report.estimate ∧
      root < g.size ∧ ∃ calls,
        (g.storedTopology { custom } root 0 calls).Exported path publication.report t' ∧
        (g.storedTopology { custom } root 0 calls).Reported g publication.report := by
  obtain ⟨x, hsize, hroot, hstored⟩ := hwf.sized_of_exportTo h
  exact ⟨by rw [hsize], hroot, x.calls, hstored⟩

/-- Left out are the paths with one end in the subtree. -/
theorem Graph.WellFormed.orphaned_of_reported {r : Registry} (hroot : root < g.size)
    {calls : CallLog} {report : ExportReport}
    (h : (g.storedTopology r root 0 calls).Reported g report) :
    report.orphaned = (g.crossingPaths (g.subtree root)).length := by
  let s := g.storedTopology r root 0 calls
  have hplaced : (Block.placements 0 s.blocks).map (·.component) = g.subtree root :=
    (Block.map_component_placements 0 s.blocks).trans (hwf.map_id_blocks r hroot 0 calls)
  have hnodup : ((Block.placements 0 s.blocks).map (·.component)).Nodup := by
    rw [Block.map_component_placements]
    exact hwf.nodup_blocks r hroot 0 calls
  have hpending := PendingPaths.size_ofPlacements hwf.toRegistered hnodup
  rw [hplaced, ← h.paths_eq_length, h.paths_eq] at hpending
  rw [h.orphaned_eq, hpending, Nat.add_sub_cancel_left]

theorem Graph.WellFormed.exported_of_exportTo {publication : Publication}
    (h : g.exportTo path root custom t = (.ok publication, t')) :
    (Exporter.size { graph := g, registry := { custom } } root).1 = .ok publication.report.estimate ∧
      root < g.size ∧ ∃ calls,
        (g.storedTopology { custom } root 0 calls).Exported path publication.report t' := by
  obtain ⟨hsize, hroot, calls, hexported, -⟩ := hwf.reported_of_exportTo h
  exact ⟨hsize, hroot, calls, hexported⟩

theorem Graph.WellFormed.estimate_of_exportTo (hpure : custom.Pure) {publication : Publication}
    (h : g.exportTo path root custom t = (.ok publication, t')) :
    publication.report.estimate = Estimate.ofSubtree g { custom } root := by
  obtain ⟨hsize, hroot, -⟩ := hwf.exported_of_exportTo h
  obtain ⟨_, hsized⟩ := Exporter.size_eq g (r := { custom }) hpure hroot
  have houtcome := (congrArg Prod.fst hsized).symm.trans hsize
  exact (Estimate.outcome_eq_ok.1 houtcome).2.symm

end Success

/-! ## When an export succeeds -/

/-- An export that was sized succeeds if its texts can be stored, the whole fits into what was sized, its
file can be created and flushed, and its path leads to no directory. -/
theorem Graph.WellFormed.exportTo_eq_ok_of_fits {g : Graph} (hwf : g.WellFormed) {custom : Table}
    {root : ComponentId} {estimate : Estimate} {x : Exporter}
    (hsize : Exporter.size { graph := g, registry := { custom } } root = (.ok estimate, x))
    (hstorable : Block.Storable (g.storedTopology { custom } root 0 x.calls).blocks)
    (hfits : headerSize + (g.storedTopology { custom } root 0 x.calls).stored.length ≤
      estimate.fileSize)
    {path : String} {t t₁ : FileTree} {region : Region}
    (hcreate : Region.create { path, size := estimate.fileSize } t = (.ok region, t₁))
    (hsyncs : t₁.syncs = true) {location : Location} (hlocation : t₁.locate? path = some location)
    (hnot : t₁.occupant? location ≠ some .directory) :
    ∃ publication t', g.exportTo path root custom t = (.ok publication, t') := by
  obtain ⟨hroot, calls, rfl⟩ := Exporter.of_size hsize
  have hfresh := Region.fresh_of_create hcreate
  have hwrite := Exporter.settles_write
    (x := { graph := g, registry := { custom }, phase := .sizing, calls }) hwf rfl hroot
    hfresh.writable
  rw [hfresh.cursor_window] at hwrite
  obtain ⟨x', hrun⟩ := hwrite.1 hstorable (hfresh.le_remaining hfits)
  let w := (region.window t₁).append (g.storedTopology { custom } root 0 calls).stored
  obtain ⟨region', t', hpublished⟩ := hfresh.exists_publish hsyncs hlocation hnot w w.cursor
  simp only [exportTo, hsize, hcreate, hrun]
  rw [hpublished]
  exact ⟨_, _, rfl⟩

/-- An export with pure encoders succeeds if its texts can be stored, its file can be created and flushed,
and its path leads to no directory. -/
theorem Graph.WellFormed.exportTo_eq_ok {g : Graph} (hwf : g.WellFormed) {custom : Table}
    (hpure : custom.Pure) (root : ComponentId) (hroot : root < g.size)
    (htotal : (Estimate.ofSubtree g { custom } root).total < UInt64.size - pageSize.toNat)
    (htexts : ∀ c ∈ g.subtree root, ∀ m, g.member? c = some m → NulFree m.texts)
    {path : String} {t t₁ : FileTree} {region : Region}
    (hcreate : Region.create
      { path, size := (Estimate.ofSubtree g { custom } root).fileSize } t = (.ok region, t₁))
    (hsyncs : t₁.syncs = true) {location : Location} (hlocation : t₁.locate? path = some location)
    (hnot : t₁.occupant? location ≠ some .directory) :
    ∃ publication t', g.exportTo path root custom t = (.ok publication, t') := by
  obtain ⟨_, hsize⟩ := Exporter.size_eq_ok g (r := { custom }) hpure hroot htotal
  exact hwf.exportTo_eq_ok_of_fits hsize
    ((Block.storable_blocks hpure (g.subtree root) _).2 htexts)
    (hwf.storedTopology_le hpure root 0 _) hcreate hsyncs hlocation hnot

/-- An export succeeds if its texts can be stored, its size can be had, its staging path can be written and
flushed, and its target is no directory. -/
theorem Graph.WellFormed.exists_exportTo {g : Graph} (hwf : g.WellFormed) {custom : Table}
    (hpure : custom.Pure) {root : ComponentId} (hroot : root < g.size)
    (htotal : (Estimate.ofSubtree g { custom } root).total < UInt64.size - pageSize.toNat)
    (hsize : (Estimate.ofSubtree g { custom } root).fileSize < Region.maxFileSize)
    (htexts : ∀ c ∈ g.subtree root, ∀ m, g.member? c = some m → NulFree m.texts)
    {path : String} {t : FileTree}
    (hvalid : RegionConfig.validate
      { path := t.resolve path, size := (Estimate.ofSubtree g { custom } root).fileSize } = .ok ())
    (hstaging : t.WritableAt (Path.staging path)) (hsyncs : t.syncs = true) {place : Location}
    (hplace : t.locate? path = some place) (htarget : t.occupant? place ≠ some .directory) :
    ∃ publication t', g.exportTo path root custom t = (.ok publication, t') := by
  obtain ⟨region, t₁, hcreate⟩ := Region.exists_create
    { path, size := (Estimate.ofSubtree g { custom } root).fileSize } t hvalid hstaging hsize
  obtain ⟨origin, hstaged⟩ := Region.staged_of_create hcreate
  have hsame := hstaged.keeps.sameDirectories
  exact hwf.exportTo_eq_ok hpure root hroot htotal htexts hcreate (hsame.syncs_eq.trans hsyncs)
    ((hstaged.keeps.locate?_eq path).trans hplace) (hsame.occupant?_ne htarget)

/-- A graph whose size is known and whose texts are in order can be exported to an empty tree. -/
theorem Graph.WellFormed.exists_exportTo_of_estimate {g : Graph} (hwf : g.WellFormed) {custom : Table}
    (hpure : custom.Pure) {root : ComponentId} (hroot : root < g.size) {estimate : Estimate}
    (hestimate : Estimate.ofSubtree g { custom } root = estimate)
    (htotal : estimate.total < UInt64.size - pageSize.toNat)
    (hroom : headerSize < estimate.fileSize) (hsize : estimate.fileSize < Region.maxFileSize)
    (htexts : ∀ m ∈ (g.subtree root).filterMap g.member?, NulFree m.texts) :
    ∃ publication t, g.exportTo "node" root custom {} = (.ok publication, t) := by
  subst hestimate
  have hmembers : ∀ c ∈ g.subtree root, ∀ m, g.member? c = some m → NulFree m.texts :=
    fun c hc m hm => htexts m (List.mem_filterMap.2 ⟨c, hc, hm⟩)
  have hresolve : ({} : FileTree).resolve "node" = "node" := rfl
  have hvalid : RegionConfig.validate
      { path := ({} : FileTree).resolve "node"
        size := (Estimate.ofSubtree g { custom } root).fileSize } = .ok () := by
    rw [hresolve]
    have hnamed : (Path.fileName? "node").isSome = true := rfl
    exact RegionConfig.validate_eq_ok.2 ⟨by simp, hroom, fun _ => hnamed⟩
  have hstaging : ({} : FileTree).locate? (Path.staging "node") = some ["node.partial"] := rfl
  have htarget : ({} : FileTree).locate? "node" = some ["node"] := rfl
  exact hwf.exists_exportTo hpure hroot htotal hsize hmembers hvalid
    (FileTree.writableAt_of_vacant hstaging rfl) rfl htarget (by decide)

/-! ## The bytes of the file -/

/-- The file of an export that is described by a topology is a header, the encoding and zeros. -/
theorem Format.Topology.Describes.read?_eq {g : Graph} (hwf : g.WellFormed) {r : Registry}
    (hpure : r.custom.Pure) {root : ComponentId} (hroot : root < g.size) {calls : CallLog}
    {path : String} {report : ExportReport} {t : FileTree} {content : Format.Topology}
    (h : content.Describes g root)
    (hexported : (g.storedTopology r root 0 calls).Exported path report t) :
    let region := content.encode r
    report.bytesWritten = region.length ∧
      report.pathOffset = (content.trees.encode r 0).length ∧
      headerSize + region.length ≤ report.estimate.fileSize ∧
      t.read? path = some (Word.toBytes (UInt64.ofNat report.estimate.fileSize) ++
        (region ++ Bytes.zeros (report.estimate.fileSize - headerSize - region.length))) := by
  intro region
  have hregion : region = (g.storedTopology r root 0 calls).stored :=
    h.encode_eq hpure calls hwf hroot
  have hread := hexported.read?_eq
  have hlength := hexported.length_fileOf
  rw [Region.length_fileOf] at hlength
  rw [Region.fileOf, hlength] at hread
  rw [hregion]
  refine ⟨hexported.bytesWritten_eq, ?_, hexported.length_le, hread⟩
  rw [hexported.pathOffset_eq, h.length_trees hpure calls]

/-- **The file is exactly the specified format**: with pure encoders, the file of an export that
succeeded is the word of its own length, which is the estimated one, then the encoding of what was
exported, of the length that the report tells, and then zeros.  The encoding has the tree at offset
zero and the paths where it ends, as the report tells too.

What was exported is described by a topology, with the attributes in any order; and exports of other
graphs that are described by the same topology store the same bytes.  How many zeros follow is up to
the estimate, which counts paths that leave the subtree as well. -/
theorem Graph.read?_exportTo (list : List Edit) {custom : Table} (hpure : custom.Pure)
    {root : ComponentId} {path : String} {t t' : FileTree} {publication : Publication}
    (h : (Graph.empty.edits list).exportTo path root custom t = (.ok publication, t')) :
    let g := Graph.empty.edits list
    let r : Registry := { custom }
    let report := publication.report
    (Exporter.size { graph := g, registry := r } root).1 = .ok report.estimate ∧
      (∃ content : Format.Topology, content.Describes g root) ∧
      ∀ content : Format.Topology, content.Describes g root →
        let region := content.encode r
        report.bytesWritten = region.length ∧
        report.pathOffset = (content.trees.encode r 0).length ∧
        (∃ padding, headerSize + region.length + padding = report.estimate.fileSize ∧
          report.estimate.fileSize < UInt64.size ∧
          t'.read? path = some (Word.toBytes (UInt64.ofNat report.estimate.fileSize) ++
            (region ++ Bytes.zeros padding))) ∧
        ∀ (list' : List Edit) (root' : ComponentId) (path' : String) (s s' : FileTree)
          (other : Publication),
          (Graph.empty.edits list').exportTo path' root' custom s = (.ok other, s') →
          content.Describes (Graph.empty.edits list') root' →
          other.report.bytesWritten = report.bytesWritten ∧
          other.report.pathOffset = report.pathOffset ∧
          ∃ file file', t'.read? path = some file ∧ s'.read? path' = some file' ∧
            file'.slice headerSize report.bytesWritten =
              file.slice headerSize report.bytesWritten := by
  intro g r report
  have hwf : g.WellFormed := WellFormed.empty.edits list
  obtain ⟨hsize, hroot, calls, hexported⟩ := hwf.exported_of_exportTo h
  refine ⟨hsize, Format.Topology.exists_describes hwf hroot, ?_⟩
  intro content hcontent region
  obtain ⟨hwritten, hoffset, hle, hread⟩ := hcontent.read?_eq hwf hpure hroot hexported
  refine ⟨hwritten, hoffset, ⟨_, ?_, hexported.fileSize_lt_size, hread⟩, ?_⟩
  · rw [Nat.sub_sub]
    exact Nat.add_sub_cancel' hle
  · intro list' root' path' s s' other h' hcontent'
    have hwf' : (Graph.empty.edits list').WellFormed := WellFormed.empty.edits list'
    obtain ⟨-, hroot', calls', hexported'⟩ := hwf'.exported_of_exportTo h'
    obtain ⟨hwritten', hoffset', -, hread'⟩ := hcontent'.read?_eq hwf' hpure hroot' hexported'
    refine ⟨hwritten'.trans hwritten.symm, hoffset'.trans hoffset.symm, _, _, hread, hread', ?_⟩
    have hstored (size : Nat) (zeros : Bytes) :
        (Word.toBytes (UInt64.ofNat size) ++ (region ++ zeros)).slice headerSize region.length =
          region := Bytes.Holds.slice_eq ⟨_, _, rfl, Word.length_toBytes _⟩
    rw [hwritten, hstored, hstored]

/-- A node with a core in it and a path between them, whose attributes are listed in another order than
they are stored in. -/
theorem Graph.read?_exportTo_node :
    let g := Graph.empty.edits
      [.addComponent none
          { id := 0, name := "n0", details := .node
            attributes := .ofList [("CATcos", .u64 7), ("CATL3mask", .u64 3)] },
        .addComponent (some 0) { id := 1, details := .core }, .connect 1 0 .oriented]
    let content : Format.Topology :=
      { root :=
          { id := 0, name := "n0", details := .node
            attributes := [("CATcos", .u64 7), ("CATL3mask", .u64 3)] }
        inside := .cons { id := 1, name := "", details := .core, attributes := [] } .nil .nil
        paths := [{ source := 1, target := 0, orientation := .oriented, type := .none,
                    bandwidth := unmeasured, latency := unmeasured, attributes := [] }] }
    content.Describes g 0 ∧
      ∃ publication t padding, g.exportTo "node" 0 ∅ {} = (.ok publication, t) ∧
        publication.report.pathOffset = 133 ∧
        t.read? "node" = some (Word.toBytes (UInt64.ofNat publication.report.estimate.fileSize) ++
          (content.encode {} ++ Bytes.zeros padding)) := by
  intro g content
  have hwf : g.WellFormed := WellFormed.empty.edits _
  have hroot : 0 < g.size := show 0 < 2 by decide
  have hestimate : Estimate.ofSubtree g { custom := ∅ } 0 = .ofBytes 2 133 104 := rfl
  have hcore : Format.Trees.Describe g content.inside [1] (1 :: ([] ++ [])) :=
    .cons rfl ⟨rfl, rfl, rfl, .refl _⟩ .nil .nil
  have htrees : content.trees.Describe g [0] (0 :: ([1] ++ [])) :=
    .cons rfl ⟨rfl, rfl, rfl, .swap _ _ _⟩ hcore .nil
  have hpaths : List.Forall₂ (fun p entry => Format.Path.Describes [0, 1] p entry.2) content.paths
      (g.innerPaths [0, 1]) :=
    .cons ⟨rfl, rfl, rfl, rfl, rfl, rfl, .refl _⟩ .nil
  have hcontent : content.Describes g 0 := ⟨htrees, hpaths⟩
  have htexts : ∀ m ∈ (g.subtree 0).filterMap g.member?, NulFree m.texts := by
    unfold NulFree
    decide +kernel
  obtain ⟨publication, t, hexport⟩ := hwf.exists_exportTo_of_estimate Table.pure_empty hroot
    hestimate (by decide) (by decide) (by decide) htexts
  obtain ⟨-, -, hfile⟩ := Graph.read?_exportTo _ Table.pure_empty hexport
  obtain ⟨-, hoffset, ⟨padding, -, -, hread⟩, -⟩ := hfile content hcontent
  refine ⟨hcontent, publication, t, padding, hexport, ?_, hread⟩
  rw [hoffset, hcontent.length_trees Table.pure_empty ∅, treeSize_storedTopology Table.pure_empty,
    hestimate]
  rfl

end HardwareMap
