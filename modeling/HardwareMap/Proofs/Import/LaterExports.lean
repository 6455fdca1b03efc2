import HardwareMap.Proofs.Export.Effects
import HardwareMap.Proofs.Import.RoundTrip

/-!
# A published file under later exports

An export works in two places, its target and the staging path of its target.  A file that was
published keeps its bytes, and reads as the same graph, as long as neither of the two places is its
own (`Graph.importFrom_runAll`).  A file that is published at the staging path of another target is
in the way of exports to that target, which end without it (`Graph.read?_staging_of_exportTo`).
-/

namespace HardwareMap

/-- What an export is asked for. -/
structure ExportRequest where
  graph : Graph
  path : String
  root : ComponentId
  custom : Table

namespace ExportRequest

/-- The tree after an export, whether it succeeded or not. -/
def run (x : ExportRequest) (t : FileTree) : FileTree :=
  (x.graph.exportTo x.path x.root x.custom t).2

theorem run_cases (x : ExportRequest) (t : FileTree) :
    x.run t = t ∨ (∃ location file, FileTree.Erased (Path.staging x.path) location file t (x.run t)) ∨
      ∃ location place file, FileTree.Delivered x.path location place file t (x.run t) := by
  have heq := (Prod.mk.eta (p := x.graph.exportTo x.path x.root x.custom t)).symm
  rcases Graph.exportTo_cases heq with ⟨-, hsame | herased⟩ | ⟨-, hdelivered⟩
  · exact .inl hsame
  · exact .inr (.inl herased)
  · exact .inr (.inr hdelivered)

def runAll (requests : List ExportRequest) (t : FileTree) : FileTree :=
  requests.foldl (fun t x => x.run t) t

/-- An export goes to another place than a path leads to, and is not staged in the file that the path
leads to. -/
structure Spares (x : ExportRequest) (path : String) (t : FileTree) : Prop where
  target_ne : t.locate? x.path ≠ t.locate? path
  staging_ne : t.lookup? (Path.staging x.path) ≠ t.lookup? path

end ExportRequest

namespace FileTree

variable {path : String} {file : FileId} {t t' t'' : FileTree}

/-- A path still leads to a file, which is as it was. -/
structure StillAt (path : String) (file : FileId) (t t' : FileTree) : Prop where
  sameDirectories : SameDirectories t t'
  lookup?_eq : t'.lookup? path = some (.file file)
  object_eq : t'.object file = t.object file

namespace StillAt

theorem refl (h : t.lookup? path = some (.file file)) : StillAt path file t t :=
  ⟨.refl t, h, rfl⟩

variable (h : StillAt path file t t')

include h

theorem locate?_eq (other : String) : t'.locate? other = t.locate? other :=
  locate?_congr h.sameDirectories other

/-- A file stays under a change at other places and of another file. -/
theorem keeps {places : List Location} {other : FileId} (hkeeps : Keeps places other t' t'')
    (hne : file ≠ other) (hnot : ∀ place ∈ places, t'.locate? path ≠ some place) :
    StillAt path file t t'' where
  sameDirectories := h.sameDirectories.trans hkeeps.sameDirectories
  lookup?_eq := (hkeeps.lookup?_eq hnot).trans h.lookup?_eq
  object_eq := (hkeeps.object_eq file (t'.lt_of_lookup? h.lookup?_eq) hne).trans h.object_eq

/-- A path that did not lead to the file does not lead there now. -/
theorem lookup?_ne {other : String} (hne : t.lookup? other ≠ t.lookup? path) :
    t'.lookup? other ≠ some (.file file) := by
  intro hother
  obtain ⟨location, hlocation, hentry⟩ := Option.bind_eq_some_iff.1 hother
  obtain ⟨place, hplace, hfile⟩ := Option.bind_eq_some_iff.1 h.lookup?_eq
  obtain rfl := t'.eq_of_occupant? hentry hfile
  rw [h.locate?_eq] at hlocation hplace
  exact hne (by rw [lookup?, lookup?, hlocation, hplace])

/-- One more export that spares the file. -/
theorem run {x : ExportRequest} (hspares : x.Spares path t) : StillAt path file t (x.run t') := by
  have hstaging : t'.lookup? (Path.staging x.path) ≠ some (.file file) :=
    h.lookup?_ne hspares.staging_ne
  have hlt := t'.lt_of_lookup? h.lookup?_eq
  -- the place where the export is staged is not that of the file
  have hplace : ∀ {location}, t'.locate? (Path.staging x.path) = some location →
      t'.locate? path ≠ some location := by
    intro location hlocation hpath
    apply hstaging
    rw [lookup?, hlocation, ← hpath]
    exact h.lookup?_eq
  rcases x.run_cases t' with
    hsame | ⟨location, other, herased⟩ | ⟨location, place, other, hdelivered⟩
  · rw [hsame]
    exact h
  · have hne := ne_of_before herased.locate?_eq herased.before hlt hstaging
    refine h.keeps herased.keeps hne fun place hmem => ?_
    rw [List.mem_singleton.1 hmem]
    exact hplace herased.locate?_eq
  · have hne := ne_of_before hdelivered.staging_eq hdelivered.before hlt hstaging
    refine h.keeps hdelivered.keeps hne fun other hmem => ?_
    rcases List.mem_pair.1 hmem with rfl | rfl
    · exact hplace hdelivered.staging_eq
    · intro hpath
      apply hspares.target_ne
      rw [← h.locate?_eq, ← h.locate?_eq, hpath, hdelivered.target_eq]

/-- Any number of exports that spare the file. -/
theorem runAll {later : List ExportRequest} (hspares : ∀ x ∈ later, x.Spares path t) :
    StillAt path file t (ExportRequest.runAll later t') := by
  induction later generalizing t' with
  | nil => exact h
  | cons x rest ih =>
    rw [List.forall_mem_cons] at hspares
    exact ih (h.run hspares.1) hspares.2

end StillAt

end FileTree

/-- An import depends on the file that its path leads to, and on whether permissions matter. -/
theorem Graph.importFrom_congr {path : String} {t t' : FileTree}
    (hprivileged : t'.privileged = t.privileged) (hlookup : t'.lookup? path = t.lookup? path)
    (hobject : ∀ file, t.lookup? path = some (.file file) → t'.object file = t.object file)
    (custom : Table) : importFrom path custom t' = importFrom path custom t := by
  rw [importFrom, importFrom, Region.openExisting_congr hprivileged hlookup hobject]
  cases hopen : Region.openExisting path t with
  | error e => rfl
  | ok region =>
    have hview := Region.view_congr (hobject _ (Region.openExisting_eq_ok hopen).1)
    show (region.view t' >>= _) = (region.view t >>= _)
    rw [hview]

/-- **A published file stays**: after an export that succeeded, exports of any graphs to any other
places leave its bytes as they are, so that it is imported as the same graph, whether they succeed or
not, unless one of them is to be staged in the very file that was published. -/
theorem Graph.importFrom_runAll {g : Graph} {path : String} {root : ComponentId} {custom : Table}
    {t t' : FileTree} {publication : Publication}
    (h : g.exportTo path root custom t = (.ok publication, t')) {later : List ExportRequest}
    (hspares : ∀ x ∈ later, x.Spares path t') :
    ∃ bytes, t'.read? path = some bytes ∧
      (ExportRequest.runAll later t').read? path = some bytes ∧
      ∀ table, importFrom path table (ExportRequest.runAll later t') =
        importFrom path table t' := by
  rcases exportTo_cases h with ⟨⟨e, herror⟩, -⟩ | ⟨-, location, place, file, hdelivered⟩
  · cases herror
  · have hfile : t'.lookup? path = some (.file file) := hdelivered.toPublished.lookup?_eq
    have hstill := (FileTree.StillAt.refl hfile).runAll hspares
    have hprivileged := hstill.sameDirectories.privileged_eq
    refine ⟨_, hdelivered.read?_eq, ?_, ?_⟩
    · refine (FileTree.read?_congr hprivileged ?_).trans hdelivered.read?_eq
      simp only [FileTree.file?, hfile, hstill.lookup?_eq, hstill.object_eq]
    · refine importFrom_congr hprivileged (hstill.lookup?_eq.trans hfile.symm) fun other hother => ?_
      rw [hfile] at hother
      cases hother
      exact hstill.object_eq

/-! ## Two targets side by side -/

/-- A single node can be exported wherever its staging path can be written and flushed and its target is
no directory. -/
theorem Graph.exists_exportTo_node (path : String) (t : FileTree) (htop : t.top = "")
    (hvalid : RegionConfig.validate { path, size := 4096 } = .ok ())
    (hstaging : t.WritableAt (Path.staging path)) (hsyncs : t.syncs = true) {place : Location}
    (hplace : t.locate? path = some place) (htarget : t.occupant? place ≠ some .directory) :
    ∃ publication t',
      (Graph.empty.edits [.addComponent none { id := 0, details := .node }]).exportTo path 0 ∅ t =
        (.ok publication, t') := by
  let g := Graph.empty.edits [.addComponent none { id := 0, details := .node }]
  have hestimate : Estimate.ofSubtree g { custom := ∅ } 0 = .ofBytes 1 37 8 := rfl
  have htexts : ∀ c ∈ g.subtree 0, ∀ m, g.member? c = some m → NulFree m.texts := by
    intro c hc m hm
    rw [show g.subtree 0 = [0] from rfl, List.mem_singleton] at hc
    subst hc
    cases hm
    unfold NulFree
    decide
  have hresolve : t.resolve path = path := by simp [FileTree.resolve, Path.resolve, htop]
  refine (WellFormed.empty.edits _).exists_exportTo Table.pure_empty (show 0 < g.size by decide)
    ?_ ?_ htexts ?_ hstaging hsyncs hplace htarget
  · rw [hestimate]
    decide
  · rw [hestimate]
    decide
  · rw [hresolve, hestimate]
    exact hvalid

/-- So it can be delivered. -/
theorem Graph.exists_delivered_node (path : String) (t : FileTree) (htop : t.top = "")
    (hvalid : RegionConfig.validate { path, size := 4096 } = .ok ()) {location place : Location}
    (hlocation : t.locate? (Path.staging path) = some location)
    (hstaging : t.WritableAt (Path.staging path)) (hsyncs : t.syncs = true)
    (hplace : t.locate? path = some place) (htarget : t.occupant? place ≠ some .directory) :
    ∃ publication t' file,
      (Graph.empty.edits [.addComponent none { id := 0, details := .node }]).exportTo path 0 ∅ t =
        (.ok publication, t') ∧ FileTree.Delivered path location place file t t' := by
  obtain ⟨publication, t', hexport⟩ :=
    exists_exportTo_node path t htop hvalid hstaging hsyncs hplace htarget
  rcases exportTo_cases hexport with ⟨⟨e, herror⟩, -⟩ | ⟨-, origin, target, file, hdelivered⟩
  · cases herror
  obtain rfl := Option.some.inj (hlocation.symm.trans hdelivered.staging_eq)
  obtain rfl := Option.some.inj (hplace.symm.trans hdelivered.target_eq)
  exact ⟨publication, t', file, hexport, hdelivered⟩

theorem Graph.importFrom_runAll_node :
    let g := Graph.empty.edits [.addComponent none { id := 0, details := .node }]
    ∃ publication t, g.exportTo "node" 0 ∅ {} = (.ok publication, t) ∧
      ∃ publication' t', g.exportTo "other" 0 ∅ t = (.ok publication', t') ∧
        t'.read? "node" = t.read? "node" ∧
        importFrom "node" ∅ t' = importFrom "node" ∅ t := by
  intro g
  have htarget : ({} : FileTree).locate? "node" = some ["node"] := rfl
  have hstaging : ({} : FileTree).locate? (Path.staging "node") = some ["node.partial"] := rfl
  obtain ⟨publication, t, file, hnode, hdelivered⟩ := exists_delivered_node "node" {} rfl rfl hstaging
    (FileTree.writableAt_of_vacant hstaging rfl) rfl htarget (by decide)
  have hkeeps := hdelivered.keeps
  have hentry : ∀ name, name ∉ ["node.partial", "node"] → t.occupant? [name] = none := by
    intro name hname
    rw [hkeeps.occupant?_eq [name] (by simpa using hname)]
    rfl
  have hlocate : ∀ path, t.locate? path = ({} : FileTree).locate? path := hkeeps.locate?_eq
  have hstaging' : t.locate? (Path.staging "other") = some ["other.partial"] := by
    rw [hlocate]
    rfl
  have htarget' : t.locate? "other" = some ["other"] := by
    rw [hlocate]
    rfl
  obtain ⟨publication', t', hother⟩ := exists_exportTo_node "other" t
    hkeeps.sameDirectories.top_eq (by rfl)
    (FileTree.writableAt_of_vacant hstaging' (hentry "other.partial" (by decide)))
    (hkeeps.sameDirectories.syncs_eq.trans rfl)
    htarget' (by rw [hentry "other" (by decide)]; simp)
  have hspares : ∀ x ∈ [{ graph := g, path := "other", root := 0, custom := ∅ : ExportRequest }],
      x.Spares "node" t := by
    intro x hx
    rw [List.mem_singleton.1 hx]
    refine ⟨?_, ?_⟩
    · rw [hlocate, hlocate]
      decide
    · have hnone : t.lookup? (Path.staging "other") = none := by
        rw [FileTree.lookup?, hstaging']
        exact hentry "other.partial" (by decide)
      have hsome : t.lookup? "node" = some (.file file) := by
        rw [FileTree.lookup?, hlocate, htarget]
        exact hdelivered.after
      rw [hnone, hsome]
      simp
  obtain ⟨bytes, hbefore, hafter, himport⟩ := Graph.importFrom_runAll hnode hspares
  have hrun : ExportRequest.runAll [{ graph := g, path := "other", root := 0, custom := ∅ }] t = t' :=
    congrArg Prod.snd hother
  rw [hrun] at hafter himport
  exact ⟨publication, t, hnode, publication', t', hother, hafter.trans hbefore.symm, himport ∅⟩

/-- A file that was published at the staging path of a target is gone after an export to that target,
although the two paths lead to different places. -/
theorem Graph.read?_staging_of_exportTo :
    let g := Graph.empty.edits [.addComponent none { id := 0, details := .node }]
    ∃ publication t, g.exportTo "node.partial" 0 ∅ {} = (.ok publication, t) ∧
      ∃ publication' t', g.exportTo "node" 0 ∅ t = (.ok publication', t') ∧
        t.locate? "node" ≠ t.locate? "node.partial" ∧
        (∃ bytes, t.read? "node.partial" = some bytes) ∧ t'.read? "node.partial" = none ∧
        importFrom "node.partial" ∅ t' = .error (.io .openExisting none) := by
  intro g
  have htarget : ({} : FileTree).locate? "node.partial" = some ["node.partial"] := rfl
  have hstaging : ({} : FileTree).locate? (Path.staging "node.partial") =
      some ["node.partial.partial"] := rfl
  obtain ⟨publication, t, file, hfirst, hdelivered⟩ := exists_delivered_node "node.partial" {} rfl
    rfl hstaging (FileTree.writableAt_of_vacant hstaging rfl) rfl htarget (by decide)
  have hkeeps := hdelivered.keeps
  have hlocate : ∀ path, t.locate? path = ({} : FileTree).locate? path := hkeeps.locate?_eq
  have hfree : t.occupant? ["node"] = none := by
    rw [hkeeps.occupant?_eq ["node"] (by decide)]
    rfl
  have hstaging' : t.locate? (Path.staging "node") = some ["node.partial"] := by
    rw [hlocate]
    rfl
  have htarget' : t.locate? "node" = some ["node"] := by
    rw [hlocate]
    rfl
  -- the first export left its file where the second one is staged
  have hwritable : t.WritableAt (Path.staging "node") := by
    refine ⟨_, hstaging', by rw [hdelivered.after]; simp, fun id hid => ?_⟩
    obtain rfl : file = id := by simpa [hdelivered.after] using hid
    exact ⟨hdelivered.may_eq _ (.inl rfl), hdelivered.may_eq _ (.inr rfl)⟩
  obtain ⟨publication', t', other, hsecond, hreplaced⟩ := exists_delivered_node "node" t
    hkeeps.sameDirectories.top_eq (by rfl) hstaging' hwritable
    (hkeeps.sameDirectories.syncs_eq.trans rfl) htarget' (by rw [hfree]; simp)
  have hgone : t'.lookup? "node.partial" = none := by
    rw [FileTree.lookup?, hreplaced.keeps.locate?_eq, hlocate, htarget]
    exact hreplaced.free
  refine ⟨publication, t, hfirst, publication', t', hsecond, ?_, ?_, ?_, ?_⟩
  · rw [hlocate, hlocate]
    decide
  · exact ⟨t.contents file, hdelivered.read?_eq⟩
  · simp only [FileTree.read?, hgone]
  · simp only [importFrom, Region.openExisting, hgone]
    rfl

end HardwareMap
