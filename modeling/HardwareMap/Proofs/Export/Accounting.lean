import HardwareMap.Proofs.Export.File
import HardwareMap.Proofs.Topology.Invariant

/-!
# Every path is accounted for

What is pending after components were placed are the live paths with a placed end, each with the
places of its ends (`PendingPaths.ends_of_get?`).  So an export writes the live paths with both ends
in the subtree, each once, and counts those with one end in it (`Graph.paths_accounted`).
-/

namespace HardwareMap

namespace PendingPaths

section Placed

variable {g : Graph} (h : g.Registered) {placements : List Placement}
  (hnodup : (placements.map (·.component)).Nodup)

include h hnodup

theorem nodup_keys_ofPlacements : (ofPlacements g placements).keys.Nodup := by
  rw [keys_ofPlacements h hnodup]
  exact List.pairwise_map.2 ((g.livePathList_ascending.filter _).imp Nat.ne_of_lt)

theorem mem_keys_ofPlacements {id : PathId} :
    id ∈ (ofPlacements g placements).keys ↔
      ∃ path, g.path? id = some path ∧ (path.source ∈ placements.map (·.component) ∨
        path.target ∈ placements.map (·.component)) := by
  rw [keys_ofPlacements h hnodup, List.mem_map]
  constructor
  · rintro ⟨⟨_, path⟩, hmem, rfl⟩
    exact ⟨path, Graph.mem_touchingPaths.1 hmem⟩
  · rintro ⟨path, hpath⟩
    exact ⟨(id, path), Graph.mem_touchingPaths.2 hpath, rfl⟩

/-- The end of a pending path is at an offset just if its component was placed there. -/
theorem ends_of_get? {id : PathId} {path : DataPath} {slot : PendingPath}
    (hpath : g.path? id = some path) (hslot : (ofPlacements g placements).get? id = some slot)
    (offset : Nat) :
    (slot.source = some offset ↔ { component := path.source, offset } ∈ placements) ∧
      (slot.target = some offset ↔ { component := path.target, offset } ∈ placements) := by
  rw [get?_ofPlacements h hnodup, hpath] at hslot
  simp only at hslot
  split at hslot
  · cases hslot
  · cases hslot
    exact ⟨Placement.offsetOf?_eq_some hnodup, Placement.offsetOf?_eq_some hnodup⟩

end Placed

end PendingPaths

/-- A live path is among the inner ones once if both of its ends are, and otherwise it is not. -/
theorem Graph.count_innerPaths {g : Graph} {id : PathId} {path : DataPath}
    (hpath : g.path? id = some path) (order : List ComponentId) :
    ((g.innerPaths order).map (·.1)).count id =
      if path.source ∈ order ∧ path.target ∈ order then 1 else 0 := by
  rw [(g.nodup_innerPaths order).count]
  refine if_congr ?_ rfl rfl
  rw [List.mem_map]
  constructor
  · rintro ⟨⟨_, other⟩, hmem, rfl⟩
    obtain ⟨hother, hends⟩ := mem_innerPaths.1 hmem
    rw [hpath] at hother
    cases hother
    exact hends
  · intro hends
    exact ⟨(id, path), mem_innerPaths.2 ⟨hpath, hends⟩, rfl⟩

/-- **Every path is accounted for**: in a graph that was made by any edits, once different components
were placed, pending are just the live paths with an end that was placed, each once, and each end of
them is at an offset just if its component was placed there.

The path section in the file of an export is made of blocks, each of a live path; a live path has one
block if both of its ends are in the subtree, and none otherwise.  The report tells how many paths have
both ends in the subtree, and how many have just one. -/
theorem Graph.paths_accounted (list : List Edit) :
    let g := Graph.empty.edits list
    (∀ placements : List Placement, (placements.map (·.component)).Nodup →
      let pending := PendingPaths.ofPlacements g placements
      pending.keys.Nodup ∧
      (∀ id, id ∈ pending.keys ↔ ∃ path, g.path? id = some path ∧
        (path.source ∈ placements.map (·.component) ∨
          path.target ∈ placements.map (·.component))) ∧
      ∀ id path slot, g.path? id = some path → pending.get? id = some slot → ∀ offset,
        (slot.source = some offset ↔ { component := path.source, offset } ∈ placements) ∧
        (slot.target = some offset ↔ { component := path.target, offset } ∈ placements)) ∧
    ∀ (path : String) (root : ComponentId) (custom : Table) (t t' : FileTree)
      (publication : Publication), g.exportTo path root custom t = (.ok publication, t') →
      let order := g.subtree root
      let report := publication.report
      (∃ calls file, t'.read? path = some file ∧
        let s := g.storedTopology { custom } root 0 calls
        file.slice (headerSize + report.pathOffset) (report.bytesWritten - report.pathOffset) =
          PathBlock.storedSection s.place s.paths ∧
        (∀ b ∈ s.paths, g.path? b.id = some b.path) ∧
        ∀ id p, g.path? id = some p → (s.paths.map (·.id)).count id =
          if p.source ∈ order ∧ p.target ∈ order then 1 else 0) ∧
      report.paths = g.livePathList.countP (fun entry =>
        entry.2.source ∈ order && entry.2.target ∈ order) ∧
      report.orphaned = g.livePathList.countP fun entry =>
        decide (entry.2.source ∈ order) ^^ decide (entry.2.target ∈ order) := by
  intro g
  have hwf : g.WellFormed := WellFormed.empty.edits list
  refine ⟨?_, ?_⟩
  · intro placements hnodup pending
    exact ⟨PendingPaths.nodup_keys_ofPlacements hwf.toRegistered hnodup,
      fun _ => PendingPaths.mem_keys_ofPlacements hwf.toRegistered hnodup,
      fun _ _ _ => PendingPaths.ends_of_get? hwf.toRegistered hnodup⟩
  · intro path root custom t t' publication h order report
    obtain ⟨-, hroot, calls, hexported, hreported⟩ := hwf.reported_of_exportTo h
    obtain ⟨file, hread, hsection⟩ := hexported.slice_paths
    refine ⟨⟨calls, file, hread, ?_⟩, ?_, ?_⟩
    · refine ⟨hsection, ?_, ?_⟩
      · intro b hb
        obtain ⟨hentry, -⟩ := PathBlock.exists_packAll_of_mem hb
        exact (mem_innerPaths.1 hentry).1
      · intro id p hp
        rw [map_id_paths]
        exact count_innerPaths hp order
    · rw [List.countP_eq_length_filter]
      exact hreported.paths_eq_length
    · rw [List.countP_eq_length_filter]
      exact hwf.orphaned_of_reported hroot hreported

/-- A node with two cores, one of which is joined to itself.  Of the paths between the cores one was
deleted; another path leads to a second node, which has one to itself. -/
theorem Graph.paths_accounted_node :
    let g := Graph.empty.edits
      [.addComponent none { id := 0, details := .node },
        .addComponent (some 0) { id := 1, details := .core },
        .addComponent (some 0) { id := 2, details := .core },
        .addComponent none { id := 3, details := .node },
        .connect 1 2 .oriented, .connect 1 1 .bidirectional, .connect 2 1 .oriented,
        .connect 2 3 .bidirectional, .connect 3 3 .oriented, .deletePath 0]
    let placements : List Placement := [⟨2, 40⟩, ⟨1, 80⟩]
    let pending := PendingPaths.ofPlacements g placements
    3 ∈ pending.keys ∧ 4 ∉ pending.keys ∧
      (∀ slot, pending.get? 3 = some slot → slot.source = some 40 ∧ slot.target ≠ some 80) ∧
      ∃ publication t, g.exportTo "node" 0 ∅ {} = (.ok publication, t) ∧
        publication.report.paths = 2 ∧ publication.report.orphaned = 1 := by
  intro g placements pending
  have hwf : g.WellFormed := WellFormed.empty.edits _
  have hroot : 0 < g.size := show 0 < 4 by decide
  have hestimate : Estimate.ofSubtree g { custom := ∅ } 0 = .ofBytes 3 127 248 := by decide +kernel
  have htexts : ∀ m ∈ (g.subtree 0).filterMap g.member?, NulFree m.texts := by decide +kernel
  obtain ⟨publication, t, hexport⟩ := hwf.exists_exportTo_of_estimate Table.pure_empty hroot
    hestimate (by decide) (by decide) (by decide) htexts
  obtain ⟨hplaced, hexports⟩ := Graph.paths_accounted _
  obtain ⟨-, hpaths, horphaned⟩ := hexports "node" 0 ∅ {} t publication hexport
  obtain ⟨-, hkeys, hends⟩ := hplaced placements (by decide)
  obtain ⟨outer, houter, hsource, htarget⟩ :
      ∃ p, g.path? 3 = some p ∧ p.source = 2 ∧ p.target = 3 := ⟨_, rfl, rfl, rfl⟩
  have hthree : 3 ∈ pending.keys := (hkeys 3).2 ⟨outer, houter, .inl (by rw [hsource]; decide)⟩
  have hfour : 4 ∉ pending.keys := by
    intro hkey
    obtain ⟨path, hpath, hend⟩ := (hkeys 4).1 hkey
    cases hpath
    exact absurd hend (by decide)
  refine ⟨hthree, hfour, ?_, publication, t, hexport, ?_, ?_⟩
  · intro slot hslot
    obtain ⟨hleft, -⟩ := hends 3 outer slot houter hslot 40
    obtain ⟨-, hright⟩ := hends 3 outer slot houter hslot 80
    rw [hsource] at hleft
    rw [htarget] at hright
    exact ⟨hleft.2 (by decide), mt hright.1 (by decide)⟩
  · rw [hpaths]
    rfl
  · rw [horphaned]
    rfl

end HardwareMap
