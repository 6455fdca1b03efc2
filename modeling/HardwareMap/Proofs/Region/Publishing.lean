import HardwareMap.Proofs.Region.Calls
import HardwareMap.Proofs.Region.Staging
import Mathlib.Logic.Relation

/-!
# A region until and after it is published

A region that is renamed when it is published lives under its staging path first.  `Region.Step` is
what may happen to it short of that: calls, which may fail, attempts to publish it that are refused,
and whatever others do elsewhere in the tree.  All that such a step changes of the region is the
cursor and the bytes (`Region.Step.persists`), so over any run of steps its names lead where they did
(`Region.persists_of_run`), and publishing it moves all of its bytes to the target at once
(`Region.hidden_until_published`).
-/

namespace HardwareMap

/-! ## What others leave alone -/

namespace FileTree

variable {paths paths' : List String} {held held' : FileId → Prop} {t t' t'' : FileTree}

/-- From one tree to the other some paths lead where they did and some files are as they were, for the
same process.  Anything else may have changed. -/
structure Retains (paths : List String) (held : FileId → Prop) (t t' : FileTree) : Prop where
  privileged_eq : t'.privileged = t.privileged
  lookup?_eq : ∀ path ∈ paths, t'.lookup? path = t.lookup? path
  object_eq : ∀ id, held id → id < t.files.size → t'.object id = t.object id
  size_le : t.files.size ≤ t'.files.size

namespace Retains

theorem refl (paths : List String) (held : FileId → Prop) (t : FileTree) : Retains paths held t t :=
  ⟨rfl, fun _ _ => rfl, fun _ _ _ => rfl, Nat.le_refl _⟩

theorem trans (h : Retains paths held t t') (h' : Retains paths held t' t'') :
    Retains paths held t t'' where
  privileged_eq := h'.privileged_eq.trans h.privileged_eq
  lookup?_eq := fun path hpath => (h'.lookup?_eq path hpath).trans (h.lookup?_eq path hpath)
  object_eq := fun id hheld hid =>
    (h'.object_eq id hheld (Nat.lt_of_lt_of_le hid h.size_le)).trans (h.object_eq id hheld hid)
  size_le := Nat.le_trans h.size_le h'.size_le

theorem mono (h : Retains paths held t t') (hpaths : paths' ⊆ paths)
    (hheld : ∀ id, held' id → held id) : Retains paths' held' t t' where
  privileged_eq := h.privileged_eq
  lookup?_eq := fun path hpath => h.lookup?_eq path (hpaths hpath)
  object_eq := fun id hid => h.object_eq id (hheld id hid)
  size_le := h.size_le

theorem contents_eq (h : Retains paths held t t') {id : FileId} (hheld : held id)
    (hid : id < t.files.size) : t'.contents id = t.contents id :=
  congrArg FileObject.bytes (h.object_eq id hheld hid)

theorem may_eq (h : Retains paths held t t') {id : FileId} (hheld : held id)
    (hid : id < t.files.size) (bit : UInt32) : t'.may bit id = t.may bit id :=
  may_congr h.privileged_eq (congrArg FileObject.permissions (h.object_eq id hheld hid)) bit

/-- A path that leads where it did, to a file that is as it was, leads to the same file. -/
theorem file?_eq (h : Retains paths held t t') {path : String} (hpath : path ∈ paths)
    (hheld : ∀ id, t.lookup? path = some (.file id) → held id) : t'.file? path = t.file? path := by
  rw [file?, file?, h.lookup?_eq path hpath]
  rcases hlookup : t.lookup? path with _ | ⟨id⟩ | _
  · rfl
  · simp only [h.object_eq id (hheld id hlookup) (t.lt_of_lookup? hlookup)]
  · rfl

end Retains

/-- A change elsewhere, of another file, leaves paths and files alone. -/
theorem Keeps.retains {places : List Location} {file : FileId} (h : Keeps places file t t')
    (hpaths : ∀ path ∈ paths, ∀ place ∈ places, t.locate? path ≠ some place)
    (hheld : ∀ id, held id → id < t.files.size → id ≠ file) : Retains paths held t t' where
  privileged_eq := h.sameDirectories.privileged_eq
  lookup?_eq := fun path hpath => h.lookup?_eq (hpaths path hpath)
  object_eq := fun id hid hlt => h.object_eq id hlt (hheld id hid hlt)
  size_le := h.size_le

/-- A file that is put at a staging path is not that of the target. -/
theorem Staged.ne_of_target {path : String} {location : Location} {file id : FileId}
    (h : Staged (Path.staging path) location file t t')
    (hid : t.lookup? path = some (.file id)) : id ≠ file := by
  obtain ⟨place, hplace, hentry⟩ := Option.bind_eq_some_iff.1 hid
  refine ne_of_before h.locate?_eq h.before (t.lt_of_occupant? hentry) fun hstaging => ?_
  rw [lookup?, h.locate?_eq, Option.bind_some] at hstaging
  obtain rfl := t.eq_of_occupant? hentry hstaging
  exact locate?_staging_ne hplace h.locate?_eq

end FileTree

namespace Region

open FileTree (Keeps Retains Staged Published)

/-! ## Publishing -/

/-- A region that cannot be published stays as it is, and so does the tree. -/
theorem publish_eq_error {r r' : Region} {t t' : FileTree} {e : Error}
    (h : r.publish t = (.error e, r', t')) : r' = r ∧ t' = t := by
  rcases publish_cases h with ⟨-, hsame⟩ | ⟨hok, -⟩
  · exact hsame
  · cases hok

/-- Publishing moves the file of the region from its staging path to its target. -/
theorem publish_eq_ok {r r' : Region} {t t' : FileTree}
    (hstaging : r.staging = some (Path.staging r.path))
    (hfile : t.lookup? (Path.staging r.path) = some (.file r.file))
    (h : r.publish t = (.ok (), r', t')) :
    r' = { r with staging := none } ∧ t'.files = t.files ∧
      ∃ location place, Published r.path location place r.file t t' := by
  rcases publish_cases h with ⟨⟨e, herror⟩, -⟩ | ⟨-, -, ⟨hnone, -⟩ | ⟨staging, hsome, hr', hrename⟩⟩
  · cases herror
  · cases hstaging.symm.trans hnone
  · cases hstaging.symm.trans hsome
    obtain ⟨location, hstaged⟩ := FileTree.staged_of_lookup? hfile
    exact ⟨hr', (FileTree.rename?_eq_some hrename hfile).2.1, location, hstaged.published hrename⟩

/-- A staged region can be published if its device takes it, unless its target is a directory. -/
theorem exists_publish {r : Region} {t : FileTree} {location : Location} (hsyncs : t.syncs = true)
    (hstaging : r.staging = some (Path.staging r.path))
    (hfile : t.lookup? (Path.staging r.path) = some (.file r.file))
    (htarget : t.locate? r.path = some location) (hnot : t.occupant? location ≠ some .directory) :
    ∃ t', r.publish t = (.ok (), { r with staging := none }, t') := by
  obtain ⟨t', hrename⟩ := FileTree.exists_rename? hfile htarget hnot
  exact ⟨t', publish_of_rename? (flush_of_syncs hsyncs r) hstaging hrename⟩

/-- The bytes of a region are at its path, in a file that holds its own length in its header, and are
found by whoever opens the path, if the file may be read; the staging path is free, and publishing the
region once more flushes it and changes nothing. -/
structure Visible (readable : Bool) (r : Region) (t : FileTree) : Prop where
  isPublished_eq : r.isPublished = true
  publish_eq : r.publish t = (r.flush t, r, t)
  staging_free : t.lookup? (Path.staging r.path) = none
  file?_eq : ∃ file, t.file? r.path = some file ∧
    Bytes.ofLittleEndian (file.bytes.take headerSize) = file.bytes.length ∧
    r.view t = .ok (file.bytes.drop headerSize)
  opens : ∃ reader, reader.view t = r.view t ∧
    openExisting r.path t = if readable then .ok reader else .error (.io .openExisting none)

/-- A region that is intact and found at its target is visible. -/
theorem Intact.visible {size : Nat} {r : Region} {t : FileTree} (h : Intact size r t)
    (hsize : size < maxFileSize) (hstaging : r.staging = none)
    (hfree : t.lookup? (Path.staging r.path) = none)
    (hfound : t.lookup? r.path = some (.file r.file)) : Visible (t.may ownerReads r.file) r t := by
  obtain ⟨bytes, hcontents, rfl⟩ := h.contents_eq
  have hword : headerSize + bytes.length < UInt64.size := Nat.lt_trans hsize (by decide)
  have hview : r.view t = .ok bytes := by
    simp only [view, hcontents]
    rw [if_neg (by rw [length_fileOf]; omega), drop_fileOf]
  obtain ⟨reader, hreader, hopen⟩ := openExisting_fileOf hfound hcontents hword
  exact {
    isPublished_eq := by rw [isPublished, hstaging]; rfl
    publish_eq := publish_of_staging_eq_none hstaging t
    staging_free := hfree
    file?_eq := by
      have hbytes : (t.object r.file).bytes = fileOf bytes := hcontents
      refine ⟨t.object r.file, by simp only [FileTree.file?, hfound], ?_, ?_⟩
      · rw [hbytes]
        exact ofLittleEndian_fileOf hword
      · rw [hview, hbytes, drop_fileOf]
    opens := ⟨reader, hreader.trans hview.symm, hopen⟩ }

/-! ## Steps short of publishing -/

/-- What may happen while a region is mapped, short of publishing it: calls, which may fail, attempts
to publish it that are refused, and changes that others make.  These leave alone what the target and
the staging path lead to, the file of the region, and the file that the target led to at first,
which is there for those who mapped it even when it has no name any more. -/
inductive Step (old : Option Entry) : Region × FileTree → Region × FileTree → Prop
  | call {α : Type} {m : Writer α} (hm : m.Call) (r : Region) (t : FileTree) :
      Step old (r, t) (r.run m t).2
  | flush {outcome : Except Error Unit} {r : Region} {t : FileTree} (h : r.flush t = outcome) :
      Step old (r, t) (r, t)
  | refused {r r' : Region} {t t' : FileTree} {e : Error}
      (h : r.publish t = (.error e, r', t')) : Step old (r, t) (r', t')
  | others {r : Region} {t t' : FileTree}
      (h : Retains [r.path, Path.staging r.path]
        (fun id => id = r.file ∨ old = some (.file id)) t t') : Step old (r, t) (r, t')

/-- Any number of steps. -/
abbrev Run (old : Option Entry) : Region × FileTree → Region × FileTree → Prop :=
  Relation.ReflTransGen (Step old)

/-- The region is the same but for its cursor, its names lead where they did, another file that the
target led to at first is as it was, and the file of the region may be opened as before and still holds
its length. -/
structure Persists (old : Option Entry) (s s' : Region × FileTree) : Prop where
  region_eq : s'.1 = { s.1 with cursor := s'.1.cursor }
  retains : Retains [s.1.path, Path.staging s.1.path]
    (fun id => id ≠ s.1.file ∧ old = some (.file id)) s.2 s'.2
  may_eq : s.1.file < s.2.files.size → ∀ bit, s'.2.may bit s.1.file = s.2.may bit s.1.file
  intact : ∀ {size}, Intact size s.1 s.2 → Intact size s'.1 s'.2

namespace Persists

variable {old : Option Entry} {s s' s'' : Region × FileTree}

theorem refl (old : Option Entry) (s : Region × FileTree) : Persists old s s :=
  ⟨rfl, .refl _ _ _, fun _ _ => rfl, id⟩

theorem trans (h : Persists old s s') (h' : Persists old s' s'') : Persists old s s'' := by
  have hregion := h'.region_eq
  have hretains := h'.retains
  have hmay := h'.may_eq
  rw [h.region_eq] at hregion hretains hmay
  exact ⟨hregion, h.retains.trans hretains,
    fun hlt bit => (hmay (Nat.lt_of_lt_of_le hlt h.retains.size_le) bit).trans (h.may_eq hlt bit),
    fun hintact => h'.intact (h.intact hintact)⟩

theorem path_eq (h : Persists old s s') : s'.1.path = s.1.path := by rw [h.region_eq]

theorem file_eq (h : Persists old s s') : s'.1.file = s.1.file := by rw [h.region_eq]

theorem staging_eq (h : Persists old s s') : s'.1.staging = s.1.staging := by rw [h.region_eq]

theorem lookup?_target (h : Persists old s s') : s'.2.lookup? s.1.path = s.2.lookup? s.1.path :=
  h.retains.lookup?_eq _ (by simp)

theorem lookup?_staging (h : Persists old s s') :
    s'.2.lookup? (Path.staging s.1.path) = s.2.lookup? (Path.staging s.1.path) :=
  h.retains.lookup?_eq _ (by simp)

end Persists

theorem Step.persists {old : Option Entry} {s s' : Region × FileTree} (h : Step old s s') :
    Persists old s s' := by
  cases h with
  | call hm r t =>
    refine ⟨?_, ?_, (keeps_run r _ t).may_eq, fun hintact => hintact.run hm.keepsShape⟩
    · rw [run_state]
    · exact (keeps_run r _ t).retains (fun _ _ _ hplace => absurd hplace List.not_mem_nil)
        fun id hid _ => hid.1
  | flush => exact .refl old _
  | @refused r r' t t' e h =>
    obtain ⟨rfl, rfl⟩ := publish_eq_error h
    exact .refl old _
  | others h =>
    refine ⟨rfl, h.mono (List.Subset.refl _) fun id hid => .inr hid.2, h.may_eq (.inl rfl),
      fun hintact => ?_⟩
    refine ⟨hintact.access_eq, Nat.lt_of_lt_of_le hintact.file_lt h.size_le, ?_⟩
    rw [h.contents_eq (.inl rfl) hintact.file_lt]
    exact hintact.contents_eq

theorem persists_of_run {old : Option Entry} {s s' : Region × FileTree} (h : Run old s s') :
    Persists old s s' := by
  induction h with
  | refl => exact .refl old s
  | tail _ hstep ih => exact ih.trans hstep.persists

/-! ## From the creation to the publication -/

/-- A region before it is published: its file is found under its staging path and may be read as the
request has it, and the target leads to what it led to in the tree where the region was created. -/
structure Hidden (config : RegionConfig) (t₀ : FileTree) (r : Region) (t : FileTree) : Prop where
  path_eq : r.path = config.path
  staging_eq : r.staging = some (Path.staging config.path)
  lookup?_staging : t.lookup? (Path.staging config.path) = some (.file r.file)
  intact : Intact config.size r t
  size_lt : config.size < maxFileSize
  retains : Retains [config.path]
    (fun id => id ≠ r.file ∧ t₀.lookup? config.path = some (.file id)) t₀ t
  ne_file : ∀ id, t₀.lookup? config.path = some (.file id) → id ≠ r.file
  may_eq : t.may ownerReads r.file = config.readable t₀

theorem hidden_of_create {config : RegionConfig} {r : Region} {t₀ t : FileTree}
    (hrename : config.publishByRename = true) (hcreate : create config t₀ = (.ok r, t)) :
    Hidden config t₀ r t := by
  have hwrite : config.writePath = Path.staging config.path := by
    rw [RegionConfig.writePath, if_pos hrename]
  have hfresh := fresh_of_create hcreate
  obtain ⟨location, hstaged⟩ := staged_of_create hcreate
  have hpath : config.writePath ≠ config.path := by
    rw [hwrite]
    exact Path.staging_ne config.path
  have hstaging := hfresh.staging_of_ne hpath
  have hlookup := hfresh.lookup_eq
  rw [hwrite] at hstaged hstaging hlookup
  refine ⟨hfresh.path_eq, hstaging, hlookup, hfresh.intact, hfresh.size_lt.2, ?_,
    fun id => hstaged.ne_of_target, readable_of_create hcreate⟩
  refine hstaged.keeps.retains ?_ fun id hid _ => hid.1
  intro path hmem place hplace htarget
  rw [List.mem_singleton.1 hmem, List.mem_singleton.1 hplace] at htarget
  exact FileTree.locate?_staging_ne htarget hstaged.locate?_eq

namespace Hidden

variable {config : RegionConfig} {r r' : Region} {t₀ t t' : FileTree} (h : Hidden config t₀ r t)

include h

theorem isPublished_eq : r.isPublished = false := by
  rw [isPublished, h.staging_eq]
  rfl

theorem lookup?_target : t.lookup? config.path = t₀.lookup? config.path :=
  h.retains.lookup?_eq _ (by simp)

theorem persists (hpersists : Persists (t₀.lookup? config.path) (r, t) (r', t')) :
    Hidden config t₀ r' t' := by
  have hfile : r'.file = r.file := hpersists.file_eq
  have htarget : t'.lookup? r.path = t.lookup? r.path := hpersists.lookup?_target
  have hstaging : t'.lookup? (Path.staging r.path) = t.lookup? (Path.staging r.path) :=
    hpersists.lookup?_staging
  rw [h.path_eq] at htarget hstaging
  refine ⟨hpersists.path_eq.trans h.path_eq, hpersists.staging_eq.trans h.staging_eq, ?_,
    hpersists.intact h.intact, h.size_lt, ?_, ?_, ?_⟩
  · rw [hstaging, h.lookup?_staging, hfile]
  · rw [hfile]
    refine h.retains.trans (hpersists.retains.mono ?_ fun _ hid => hid)
    rw [h.path_eq]
    simp
  · rw [hfile]
    exact h.ne_file
  · rw [hfile]
    exact (hpersists.may_eq h.intact.file_lt ownerReads).trans h.may_eq

/-- The file that the target led to at first is as it was. -/
theorem object_old {id : FileId} (hid : t₀.lookup? config.path = some (.file id)) :
    t.object id = t₀.object id :=
  h.retains.object_eq id ⟨h.ne_file id hid, hid⟩ (t₀.lt_of_lookup? hid)

/-- A region that is published takes its file to the target, as it is. -/
theorem publish_eq_ok {t₁ : FileTree}
    (hretains : Retains [Path.staging config.path] (· = r.file) t t₁)
    (hpublish : r.publish t₁ = (.ok (), r', t')) :
    r' = { r with staging := none } ∧ t'.files = t₁.files ∧
      (t'.object r.file = t.object r.file ∧ t'.privileged = t.privileged) ∧
      t'.lookup? (Path.staging config.path) = none ∧
      t'.lookup? config.path = some (.file r.file) := by
  have hstaging := h.staging_eq
  have hfile := (hretains.lookup?_eq _ (by simp)).trans h.lookup?_staging
  rw [← h.path_eq] at hstaging hfile
  obtain ⟨hr', hfiles, location, place, hpublished⟩ := Region.publish_eq_ok hstaging hfile hpublish
  have hobject : t'.object r.file = t.object r.file := by
    rw [FileTree.object, hfiles]
    exact hretains.object_eq r.file rfl h.intact.file_lt
  have hprivileged : t'.privileged = t.privileged :=
    hpublished.keeps.sameDirectories.privileged_eq.trans hretains.privileged_eq
  rw [h.path_eq] at hpublished
  exact ⟨hr', hfiles, ⟨hobject, hprivileged⟩, hpublished.lookup?_staging, hpublished.lookup?_eq⟩

/-- Whatever happens to a region after it was published, it is visible. -/
theorem visible {old : Option Entry} {r'' : Region} {t₁ t'' : FileTree}
    (hretains : Retains [Path.staging config.path] (· = r.file) t t₁)
    (hpublish : r.publish t₁ = (.ok (), r', t')) (hrun : Run old (r', t') (r'', t'')) :
    r''.path = config.path ∧ r''.Visible (config.readable t₀) t'' := by
  obtain ⟨rfl, hfiles, ⟨hobject, hprivileged⟩, hfree, hfound⟩ := h.publish_eq_ok hretains hpublish
  have hpersists := persists_of_run hrun
  have hpath : r''.path = config.path := hpersists.path_eq.trans h.path_eq
  have hfile : r''.file = r.file := hpersists.file_eq
  have htarget : t''.lookup? r.path = t'.lookup? r.path := hpersists.lookup?_target
  have hstaging : t''.lookup? (Path.staging r.path) = t'.lookup? (Path.staging r.path) :=
    hpersists.lookup?_staging
  have hlt : r.file < t'.files.size := by
    rw [hfiles]
    exact Nat.lt_of_lt_of_le h.intact.file_lt hretains.size_le
  have hintact : Intact config.size { r with staging := none } t' := by
    refine ⟨h.intact.access_eq, hlt, ?_⟩
    rw [FileTree.contents, hobject]
    exact h.intact.contents_eq
  have hmay : t''.may ownerReads r''.file = config.readable t₀ := by
    have hpublished := FileTree.may_congr hprivileged (congrArg FileObject.permissions hobject)
      ownerReads
    rw [hfile]
    exact (hpersists.may_eq hlt ownerReads).trans (hpublished.trans h.may_eq)
  rw [← hmay]
  refine ⟨hpath, (hpersists.intact hintact).visible h.size_lt hpersists.staging_eq ?_ ?_⟩
  · rw [hpath, ← h.path_eq, hstaging, h.path_eq, hfree]
  · rw [hpath, ← h.path_eq, htarget, h.path_eq, hfound, hfile]

/-- It is so after the region was published as well, when it has lost its name. -/
theorem object_later {r'' : Region} {t'' : FileTree} {id : FileId}
    (hid : t₀.lookup? config.path = some (.file id)) (hpublish : r.publish t = (.ok (), r', t'))
    (hlater : Run (t₀.lookup? config.path) (r', t') (r'', t'')) :
    t''.object id = t₀.object id := by
  obtain ⟨rfl, hfiles, -⟩ := h.publish_eq_ok (.refl _ _ t) hpublish
  have hlt : id < t'.files.size := by
    rw [hfiles]
    exact Nat.lt_of_lt_of_le (t₀.lt_of_lookup? hid) h.retains.size_le
  calc t''.object id
      = t'.object id := (persists_of_run hlater).retains.object_eq id ⟨h.ne_file id hid, hid⟩ hlt
    _ = t.object id := by rw [FileTree.object, FileTree.object, hfiles]
    _ = t₀.object id := h.object_old hid

end Hidden

end Region

end HardwareMap
