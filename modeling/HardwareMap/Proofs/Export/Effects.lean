import HardwareMap.Export.Publication
import HardwareMap.Proofs.Export.Sizing
import HardwareMap.Proofs.Region.Staging

/-!
# What an export does to the file tree

An export ends in one of three ways: it never touched the tree, it removed its staging file again,
or it renamed the staging file over its target (`Graph.exportTo_cases`).  Everything else about its
effects follows from these.
-/

namespace HardwareMap

open FileTree (Staged Erased Published)

variable {g : Graph} {path : String} {root : ComponentId} {custom : Table} {t t' : FileTree}

/-- An export leaves its file at a target: it was published to a device that takes what is flushed, and may
be read and written. -/
structure FileTree.Delivered (path : String) (location place : Location) (file : FileId)
    (t t' : FileTree) : Prop extends Published path location place file t t' where
  syncs : t.syncs = true
  may_eq : ∀ bit, bit = ownerReads ∨ bit = ownerWrites → t'.may bit file = true

theorem FileTree.Delivered.read?_eq {location place : Location} {file : FileId}
    (h : Delivered path location place file t t') : t'.read? path = some (t'.contents file) :=
  read?_eq_some.2 ⟨file, h.toPublished.lookup?_eq, h.may_eq ownerReads (.inl rfl), rfl⟩

theorem Graph.exportTo_cases {outcome : Except Error Publication}
    (h : g.exportTo path root custom t = (outcome, t')) :
    (∃ e, outcome = .error e) ∧
        (t' = t ∨ ∃ location file, Erased (Path.staging path) location file t t') ∨
      (∃ publication, outcome = .ok publication) ∧
        ∃ location place file, FileTree.Delivered path location place file t t' := by
  unfold exportTo at h
  simp only at h
  split at h
  · cases h
    exact .inl ⟨⟨_, rfl⟩, .inl rfl⟩
  next estimate exporter _ =>
    have hpath : RegionConfig.writePath { path, size := estimate.fileSize } ≠ path :=
      Path.staging_ne path
    split at h
    next hcreate =>
      cases h
      exact .inl ⟨⟨_, rfl⟩, Region.erased_of_create_error hpath hcreate⟩
    next region t₁ hcreate =>
      have hfresh := Region.fresh_of_create hcreate
      obtain ⟨location, hstaged⟩ := Region.staged_of_create hcreate
      have hstored : ∀ w, Staged (Path.staging path) location region.file t (region.store w t₁) := by
        intro w
        rw [hfresh.store_eq w]
        exact hstaged.setContents _
      have hdiscarded : ∀ w, ∃ location file,
          Erased (Path.staging path) location file t (region.discard (region.store w t₁)) := by
        intro w
        rw [hfresh.discard_eq hpath]
        exact ⟨location, region.file, (hstored w).erased⟩
      split at h
      · cases h
        exact .inl ⟨⟨_, rfl⟩, .inr (hdiscarded _)⟩
      · split at h
        next hpublish =>
          cases h
          rcases hfresh.publish_cases hpath hpublish with ⟨hok, -⟩ | ⟨-, rfl, rfl⟩
          · cases hok
          · exact .inl ⟨⟨_, rfl⟩, .inr (hdiscarded _)⟩
        next hpublish =>
          cases h
          rcases hfresh.publish_cases hpath hpublish with ⟨-, hsyncs, hrename⟩ | ⟨⟨e, herror⟩, -⟩
          · obtain ⟨place, hpublished⟩ := (hstored _).published hrename
            refine .inr ⟨⟨_, rfl⟩, location, place, region.file, hpublished, ?_, fun bit hbit => ?_⟩
            · exact (hstored _).keeps.sameDirectories.syncs_eq.symm.trans hsyncs
            · obtain ⟨-, -, hmay⟩ := hfresh.lookup_publish hpublish
              rw [hmay, Region.may_of_create hcreate hbit, show t.allows _ bit = true from
                t.allows_default hbit, Bool.or_true]
          · cases herror

/-- **A failed export leaves no trace**: every path leads to the same place as before, every entry but
that of the staging path is as it was, and so is every file but the one that the staging path led to.
The target still leads to what it led to, and every path that leads elsewhere than the staging path leads
to the same file, with the same bytes and permissions.  If there was nothing at the staging path then
there is nothing now, and no path at all leads to anything else. -/
theorem Graph.unchanged_of_exportTo_error (g : Graph) (path : String) (root : ComponentId)
    (custom : Table) {t t' : FileTree} {e : Error}
    (h : g.exportTo path root custom t = (.error e, t')) :
    let staging := Path.staging path
    (∀ other, t'.locate? other = t.locate? other) ∧
    (∀ location, t.locate? staging ≠ some location →
      t'.occupant? location = t.occupant? location) ∧
    (∀ id, id < t.files.size → t.lookup? staging ≠ some (.file id) →
      t'.object id = t.object id) ∧
    (t'.lookup? path = t.lookup? path ∧ t'.file? path = t.file? path) ∧
    (∀ other, t.locate? other ≠ t.locate? staging →
      t'.file? other = t.file? other ∧ t'.read? other = t.read? other) ∧
    (t.lookup? staging = none → t'.lookup? staging = none ∧
      ∀ other, t'.file? other = t.file? other ∧ t'.read? other = t.read? other) := by
  intro staging
  rcases exportTo_cases h with ⟨-, rfl | ⟨location, file, herased⟩⟩ | ⟨⟨_, hok⟩, -⟩
  · exact ⟨fun _ => rfl, fun _ _ => rfl, fun _ _ _ => rfl, ⟨rfl, rfl⟩, fun _ _ => ⟨rfl, rfl⟩,
      fun hnone => ⟨hnone, fun _ => ⟨rfl, rfl⟩⟩⟩
  · have hlocate : t.locate? staging = some location := herased.locate?_eq
    have hkeeps := herased.keeps
    have htarget : t.locate? path ≠ t.locate? staging := fun heq =>
      FileTree.locate?_staging_ne (heq.trans hlocate) hlocate
    have hreads {other : String} (hfile : t'.file? other = t.file? other) :
        t'.file? other = t.file? other ∧ t'.read? other = t.read? other :=
      ⟨hfile, FileTree.read?_congr hkeeps.sameDirectories.privileged_eq hfile⟩
    refine ⟨hkeeps.locate?_eq, ?_, ?_, ⟨?_, herased.file?_eq htarget⟩, ?_, ?_⟩
    · intro place hne
      refine hkeeps.occupant?_eq place fun hmem => hne ?_
      rw [hlocate, List.mem_singleton.1 hmem]
    · intro id hid hne
      exact hkeeps.object_eq id hid (FileTree.ne_of_before hlocate herased.before hid hne)
    · exact hkeeps.lookup?_eq (herased.ne_of_locate?_ne htarget)
    · intro other hne
      exact hreads (herased.file?_eq hne)
    · intro hnone
      exact ⟨herased.lookup?_eq_none,
        fun other => hreads (herased.file?_eq_of_lookup?_eq_none hnone other)⟩
  · cases hok

/-- The name of a node ends in a zero byte, so its export fails, and the file that was at the target
is still there. -/
theorem Graph.unchanged_of_exportTo_error_node :
    let g := Graph.empty.edits [.addComponent none { id := 0, name := "n\x00", details := .node }]
    ∃ t, ({} : FileTree).write? "node" [1, 2, 3] = some t ∧
      ∃ e t', g.exportTo "node" 0 ∅ t = (.error e, t') ∧
        t'.file? "node" = some { bytes := [1, 2, 3] } ∧ t'.read? "node" = some [1, 2, 3] ∧
        t'.lookup? "node.partial" = none := by
  intro g
  have hwf : g.WellFormed := WellFormed.empty.edits _
  refine ⟨_, rfl, ?_⟩
  let t : FileTree := (FileTree.addFile {} ["node"] { bytes := [1, 2, 3] }).2
  have hestimate : Estimate.ofSubtree g { custom := ∅ } 0 = .ofBytes 1 39 8 := rfl
  obtain ⟨calls, hsize⟩ := Exporter.size_eq_ok g (r := { custom := ∅ }) Table.pure_empty
    (show 0 < g.size by decide) (by rw [hestimate]; decide)
  rw [hestimate] at hsize
  have hresolve : t.resolve "node" = "node" := rfl
  obtain ⟨region, t₁, hregion⟩ := Region.exists_create
    { path := "node", size := (Estimate.ofBytes 1 39 8).fileSize } t (by rw [hresolve]; rfl)
    (FileTree.writableAt_of_vacant (show _ = some ["node.partial"] from rfl) rfl) (by decide)
  have hfresh := Region.fresh_of_create hregion
  have htexts : ¬ Block.Storable (g.storedTopology { custom := ∅ } 0 0 calls).blocks := by
    intro hstorable
    have hall := (Block.storable_blocks (g := g) Table.pure_empty (g.subtree 0) calls).1 hstorable
    exact absurd (hall 0 (by decide) _ rfl) (by unfold NulFree; decide)
  have hwrite := Exporter.settles_write
    (x := { graph := g, registry := { custom := ∅ }, phase := .sizing, calls }) hwf rfl
    (show 0 < g.size by decide) hfresh.writable
  rw [hfresh.cursor_window] at hwrite
  obtain ⟨e, x', w, hrun, -⟩ := hwrite.2 fun hgood => htexts hgood.1
  have hexport : g.exportTo "node" 0 ∅ t = (.error e, region.discard (region.store w t₁)) := by
    simp only [exportTo, hsize, hregion, hrun]
  obtain ⟨-, -, -, -, -, hnone⟩ := Graph.unchanged_of_exportTo_error g "node" 0 ∅ hexport
  obtain ⟨hvacant, hsame⟩ := hnone rfl
  have hread : t.read? "node" = some [1, 2, 3] :=
    FileTree.read?_eq_some.2 ⟨0, rfl, by decide, rfl⟩
  exact ⟨e, _, hexport, (hsame "node").1, (hsame "node").2.trans hread, hvacant⟩

end HardwareMap
