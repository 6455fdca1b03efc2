import HardwareMap.Proofs.Export.Effects
import HardwareMap.Proofs.Export.Failures
import HardwareMap.Proofs.Export.File

/-!
# Where an export can go

Of the tree of files an export asks only for a name, a staging path that it may write, a device that
takes what is flushed, and that no directory is in the way (`FileTree.Admits`).  Where this is so it
succeeds, unless there is something about what is exported (`Graph.WellFormed.exists_exportTo_of_fits`,
`Graph.WellFormed.unwritable_of_exportTo`); and an export that succeeded found it so, and left it so.
-/

namespace HardwareMap

/-- An export can go to a path: it has a name, its staging path can be written and flushed, and it leads
to no directory. -/
structure FileTree.Admits (t : FileTree) (path : String) : Prop where
  path_ne : t.resolve path ≠ ""
  named : (Path.fileName? (t.resolve path)).isSome
  staging : t.WritableAt (Path.staging path)
  syncs : t.syncs = true
  target : ∃ location, t.locate? path = some location ∧ t.occupant? location ≠ some .directory

namespace Graph

variable {g : Graph} {path : String} {root : ComponentId} {custom : Table} {t t' : FileTree}
  {publication : Publication}

/-- An export that succeeded has created its region. -/
theorem exists_create_of_exportTo (h : g.exportTo path root custom t = (.ok publication, t')) :
    ∃ size region t₁, Region.create { path, size } t = (.ok region, t₁) := by
  unfold exportTo at h
  simp only at h
  split at h
  · cases h
  next estimate _ _ =>
    split at h
    · cases h
    next region t₁ hcreate => exact ⟨estimate.fileSize, region, t₁, hcreate⟩

/-- An export that succeeded could go where it went. -/
theorem admits_before_exportTo (h : g.exportTo path root custom t = (.ok publication, t')) :
    t.Admits path := by
  obtain ⟨size, region, t₁, hcreate⟩ := exists_create_of_exportTo h
  obtain ⟨hvalid, -, -, opened, htruncate, -⟩ := Region.create_eq_ok hcreate
  obtain ⟨hpath, -, hnamed⟩ := RegionConfig.validate_eq_ok.1 hvalid
  rcases exportTo_cases h with ⟨⟨e, herror⟩, -⟩ | ⟨-, location, place, file, hdelivered⟩
  · cases herror
  refine ⟨hpath, hnamed rfl, (FileTree.writableAt_iff _).2 ⟨_, _, htruncate⟩, hdelivered.syncs, place,
    hdelivered.target_eq, hdelivered.keeps.sameDirectories.symm.occupant?_ne ?_⟩
  rw [hdelivered.after]
  simp

/-- What an export went to, another one can go to. -/
theorem admits_of_exportTo (h : g.exportTo path root custom t = (.ok publication, t')) :
    t'.Admits path := by
  obtain ⟨hpath, hnamed, -, -, place, htarget, hopen⟩ := admits_before_exportTo h
  rcases exportTo_cases h with ⟨⟨e, herror⟩, -⟩ | ⟨-, location, target, file, hdelivered⟩
  · cases herror
  have hkeeps := hdelivered.keeps
  have hsame := hkeeps.sameDirectories
  have hresolve : t'.resolve path = t.resolve path := congrArg (Path.resolve · path) hsame.top_eq
  have hstaging : t'.locate? (Path.staging path) = some location :=
    (hkeeps.locate?_eq _).trans hdelivered.staging_eq
  exact ⟨hresolve ▸ hpath, hresolve ▸ hnamed,
    FileTree.writableAt_of_vacant hstaging hdelivered.free, hsame.syncs_eq.trans hdelivered.syncs,
    place, (hkeeps.locate?_eq _).trans htarget, hsame.occupant?_ne hopen⟩

/-- Wherever an export can go, it succeeds if it was sized, its texts can be stored, the whole fits into
what was sized, and this can be had. -/
theorem WellFormed.exists_exportTo_of_fits (hwf : g.WellFormed) {estimate : Estimate} {x : Exporter}
    (hsize : Exporter.size { graph := g, registry := { custom } } root = (.ok estimate, x))
    (hmax : estimate.fileSize < Region.maxFileSize)
    (hstorable : Block.Storable (g.storedTopology { custom } root 0 x.calls).blocks)
    (hfits : headerSize + (g.storedTopology { custom } root 0 x.calls).stored.length ≤
      estimate.fileSize) (hadmits : t.Admits path) :
    ∃ publication t', g.exportTo path root custom t = (.ok publication, t') := by
  obtain ⟨hpath, hnamed, hstaging, hsyncs, place, hplace, htarget⟩ := hadmits
  have hroom := Exporter.headerSize_lt_of_size hsize
  obtain ⟨region, t₁, hcreate⟩ := Region.exists_create { path, size := estimate.fileSize } t
    (RegionConfig.validate_eq_ok.2 ⟨hpath, hroom, fun _ => hnamed⟩) hstaging hmax
  obtain ⟨origin, hstaged⟩ := Region.staged_of_create hcreate
  have hsame := hstaged.keeps.sameDirectories
  exact hwf.exportTo_eq_ok_of_fits hsize hstorable hfits hcreate (hsame.syncs_eq.trans hsyncs)
    ((hstaged.keeps.locate?_eq path).trans hplace) (hsame.occupant?_ne htarget)

/-- Wherever an export can go, it fails only for want of room or for a text with a zero byte, if a file of
the size that was estimated can be had. -/
theorem WellFormed.unwritable_of_exportTo (hwf : g.WellFormed) {estimate : Estimate} {x : Exporter}
    (hsize : Exporter.size { graph := g, registry := { custom } } root = (.ok estimate, x))
    (hmax : estimate.fileSize < Region.maxFileSize) (hadmits : t.Admits path) {e : Error}
    (h : g.exportTo path root custom t = (.error e, t')) : e.Unwritable := by
  obtain ⟨hpath, hnamed, hstaging, hsyncs, place, hplace, htarget⟩ := hadmits
  have hroom := Exporter.headerSize_lt_of_size hsize
  obtain ⟨hroot, calls, rfl⟩ := Exporter.of_size hsize
  obtain ⟨region, t₁, hcreate⟩ := Region.exists_create { path, size := estimate.fileSize } t
    (RegionConfig.validate_eq_ok.2 ⟨hpath, hroom, fun _ => hnamed⟩) hstaging hmax
  have hfresh := Region.fresh_of_create hcreate
  obtain ⟨origin, hstaged⟩ := Region.staged_of_create hcreate
  simp only [exportTo, hsize, hcreate] at h
  split at h
  next e' hwrite =>
    cases h
    exact Exporter.unwritable_of_write
      (x := { graph := g, registry := { custom }, phase := .sizing, calls }) hwf.toForest rfl hroot
      hfresh.writable.access_eq (Prod.ext hwrite rfl)
  next tree paths hwrite =>
    have hsame := hstaged.keeps.sameDirectories
    obtain ⟨region', t₂, hpublish⟩ := hfresh.exists_publish (hsame.syncs_eq.trans hsyncs)
      ((hstaged.keeps.locate?_eq path).trans hplace) (hsame.occupant?_ne htarget) _ _
    rw [hpublish] at h
    cases h

/-- Wherever an export with pure encoders can go, it succeeds if its texts can be stored and its size can
be had. -/
theorem WellFormed.exists_exportTo_of_admits (hwf : g.WellFormed) (hpure : custom.Pure)
    (hroot : root < g.size)
    (htotal : (Estimate.ofSubtree g { custom } root).total < UInt64.size - pageSize.toNat)
    (hmax : (Estimate.ofSubtree g { custom } root).fileSize < Region.maxFileSize)
    (htexts : ∀ c ∈ g.subtree root, ∀ m, g.member? c = some m → NulFree m.texts)
    (hadmits : t.Admits path) :
    ∃ publication t', g.exportTo path root custom t = (.ok publication, t') := by
  obtain ⟨_, hsize⟩ := Exporter.size_eq_ok g (r := { custom }) hpure hroot htotal
  exact hwf.exists_exportTo_of_fits hsize hmax
    ((Block.storable_blocks hpure (g.subtree root) _).2 htexts)
    (hwf.storedTopology_le hpure root 0 _) hadmits

end Graph

end HardwareMap
