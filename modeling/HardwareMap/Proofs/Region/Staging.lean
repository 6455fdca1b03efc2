import HardwareMap.Proofs.Region.Frame
import HardwareMap.Proofs.Region.Mapped

/-!
# Files under a staging path

The staging path of a path leads to another place than the path itself (`FileTree.locate?_staging_ne`).
A region that is created under its staging path leaves everything alone but that place
(`Region.staged_of_create`).  Publishing it frees the place again (`FileTree.Staged.rename?`), and so
does giving it up (`FileTree.Staged.erased`, `Region.erased_of_create_error`).
-/

namespace HardwareMap

/-! ## Where a staging path leads -/

namespace Path

theorem cut_of_not_mem {cs : List Char} (h : '/' ∉ cs) : cut cs = [cs] := by
  induction cs with
  | nil => rfl
  | cons c rest ih =>
    rw [List.mem_cons, not_or] at h
    rw [cut, if_neg (Ne.symm h.1), ih h.2]

/-- What is appended to a path goes to the last of its names. -/
theorem cut_append (cs suffix : List Char) (h : '/' ∉ suffix) :
    ∃ names name, cut cs = names ++ [name] ∧ cut (cs ++ suffix) = names ++ [name ++ suffix] := by
  induction cs with
  | nil => exact ⟨[], [], rfl, cut_of_not_mem h⟩
  | cons c rest ih =>
    obtain ⟨names, name, hcut, happend⟩ := ih
    rw [List.cons_append, cut, cut, hcut, happend]
    by_cases hc : c = '/'
    · rw [if_pos hc, if_pos hc]
      exact ⟨[] :: names, name, rfl, rfl⟩
    · rw [if_neg hc, if_neg hc]
      cases names with
      | nil => exact ⟨[], c :: name, rfl, rfl⟩
      | cons first names => exact ⟨(c :: first) :: names, name, rfl, rfl⟩

theorem segments_staging (path : String) : ∃ names name, segments path = names ++ [name] ∧
    segments (staging path) = names ++ [name ++ stagingSuffix] := by
  obtain ⟨names, name, hcut, happend⟩ :=
    cut_append path.toList stagingSuffix.toList (by decide)
  refine ⟨names.map String.ofList, String.ofList name, ?_, ?_⟩
  · rw [segments, hcut, List.map_append]
    rfl
  · rw [segments, staging, String.toList_append, happend, List.map_append, List.map_singleton,
      String.ofList_append, String.ofList_toList]

theorem length_staged (name : String) : (name ++ stagingSuffix).length = name.length + 8 :=
  String.length_append name stagingSuffix

theorem staging_ne (path : String) : staging path ≠ path := by
  intro heq
  have hlen := congrArg String.length heq
  rw [staging, length_staged] at hlen
  omega

end Path

namespace FileTree

variable {t t' t'' : FileTree}

theorem follow_append (t : FileTree) (names rest : List String) (here : Location) :
    t.follow (names ++ rest) here = (t.follow names here).bind (t.follow rest) := by
  induction names generalizing here with
  | nil => rfl
  | cons name names ih =>
    rw [List.cons_append, follow, follow]
    simp only [ih]
    split
    · rfl
    · split
      · rfl
      · split
        · split <;> rfl
        · split <;> rfl

theorem follow_of_locate? {path : String} {location : Location}
    (h : t.locate? path = some location) : t.follow (Path.segments path) [] = some location := by
  unfold locate? at h
  split at h
  · cases h
  · split at h
    · cases h
    · cases h
    · exact h

/-- A single name leads to itself, to the directory it starts in or to the one above. -/
theorem follow_singleton {name : String} {here location : Location}
    (h : t.follow [name] here = some location) :
    location = here ++ [name] ∧ name ≠ "" ∧ name ≠ "." ∧ name ≠ ".." ∨
      location.length ≤ here.length ∧ (name = "" ∨ name = "." ∨ name = "..") := by
  simp only [follow] at h
  split at h
  · cases h
  · split at h
    next hdot =>
      rw [Bool.or_eq_true, decide_eq_true_eq, decide_eq_true_eq] at hdot
      cases h
      exact .inr ⟨Nat.le_refl _, hdot.elim .inl (.inr ∘ .inl)⟩
    next hdot =>
      rw [Bool.or_eq_true, decide_eq_true_eq, decide_eq_true_eq, not_or] at hdot
      split at h
      next hup =>
        split at h
        · cases h
        · cases h
          exact .inr ⟨by rw [List.length_dropLast]; exact Nat.sub_le _ _, .inr (.inr hup)⟩
      next hup =>
        split at h
        · cases h
          exact .inl ⟨rfl, hdot.1, hdot.2, hup⟩
        · cases h

/-- A file is never written at the place where it will be found. -/
theorem locate?_staging_ne {path : String} {location : Location}
    (h : t.locate? path = some location) : t.locate? (Path.staging path) ≠ some location := by
  intro hstaging
  obtain ⟨names, name, hpath, hstaged⟩ := Path.segments_staging path
  have hfollow := follow_of_locate? h
  have hfollow' := follow_of_locate? hstaging
  rw [hpath, follow_append] at hfollow
  rw [hstaged, follow_append] at hfollow'
  obtain ⟨here, hhere, hname⟩ := Option.bind_eq_some_iff.1 hfollow
  rw [hhere, Option.bind_some] at hfollow'
  have hlen := Path.length_staged name
  rcases follow_singleton hfollow' with ⟨heq, -⟩ | ⟨-, hdots⟩
  · rcases follow_singleton hname with ⟨heq', -⟩ | ⟨hle, -⟩
    · have hsame := (List.append_cancel_left (heq.symm.trans heq'))
      rw [List.cons.inj hsame |>.1] at hlen
      omega
    · rw [heq, List.length_append, List.length_singleton] at hle
      omega
  · have hshort : (name ++ Path.stagingSuffix).length ≤ 2 := by
      rcases hdots with hdot | hdot | hdot <;>
        · rw [hdot]
          decide
    omega

/-! ## A file under a staging path -/

/-- A file was put under a path: it was there before, or it is a new one.  Everything else is as
before. -/
structure Staged (path : String) (location : Location) (file : FileId) (t t' : FileTree) : Prop where
  locate?_eq : t.locate? path = some location
  before : t.occupant? location = some (.file file) ∨
    t.occupant? location = none ∧ t.files.size ≤ file
  after : t'.occupant? location = some (.file file)
  keeps : Keeps [location] file t t'

/-- A file that was put under a path is removed again.  Everything else is as before. -/
structure Erased (path : String) (location : Location) (file : FileId) (t t' : FileTree) : Prop where
  locate?_eq : t.locate? path = some location
  before : t.occupant? location = some (.file file) ∨
    t.occupant? location = none ∧ t.files.size ≤ file
  after : t'.occupant? location = none
  keeps : Keeps [location] file t t'

/-- Only the file behind a staging path itself is the one that is put there. -/
theorem ne_of_before {path : String} {location : Location} {file id : FileId}
    (hlocate : t.locate? path = some location)
    (hbefore : t.occupant? location = some (.file file) ∨
      t.occupant? location = none ∧ t.files.size ≤ file)
    (hid : id < t.files.size) (hne : t.lookup? path ≠ some (.file id)) : id ≠ file := by
  rintro rfl
  rcases hbefore with hentry | ⟨-, hle⟩
  · exact hne (lookup?_of_locate? hlocate hentry)
  · exact absurd hid (Nat.not_lt.2 hle)

/-- A file was put under the staging path of a path and then took the place of whatever file the path
led to.  Everything else is as before. -/
structure Published (path : String) (location place : Location) (file : FileId) (t t' : FileTree) :
    Prop where
  staging_eq : t.locate? (Path.staging path) = some location
  target_eq : t.locate? path = some place
  before : t.occupant? location = some (.file file) ∨
    t.occupant? location = none ∧ t.files.size ≤ file
  free : t'.occupant? location = none
  after : t'.occupant? place = some (.file file)
  keeps : Keeps [location, place] file t t'

/-- A path can be written: it leads to a file that may be read and written, or to a place where nothing
is yet. -/
def WritableAt (t : FileTree) (path : String) : Prop :=
  ∃ location, t.locate? path = some location ∧ t.occupant? location ≠ some .directory ∧
    ∀ id, t.occupant? location = some (.file id) → t.may ownerReads id ∧ t.may ownerWrites id

/-- Where a path can be written, and nowhere else, its file is opened for writing. -/
theorem writableAt_iff {path : String} (permissions : UInt32) :
    t.WritableAt path ↔ ∃ file t', t.truncate? path permissions = some (file, t') := by
  constructor
  · rintro ⟨location, hlocate, hnot, hmay⟩
    simp only [truncate?, hlocate]
    rcases hentry : t.occupant? location with _ | ⟨id⟩ | _
    · exact ⟨_, _, rfl⟩
    · exact ⟨id, t.setContents id [], if_pos (Bool.and_eq_true_iff.2 (hmay id hentry))⟩
    · exact absurd hentry hnot
  · rintro ⟨file, t', h⟩
    obtain ⟨location, hlocate, ⟨hentry, hreads, hwrites, -⟩ | ⟨hentry, -⟩⟩ := truncate?_cases h
    · refine ⟨location, hlocate, by simp [hentry], fun id hid => ?_⟩
      obtain rfl : file = id := by simpa [hentry] using hid
      exact ⟨hreads, hwrites⟩
    · exact ⟨location, hlocate, by simp [hentry], fun id hid => by simp [hentry] at hid⟩

/-- A path that leads nowhere yet can be written. -/
theorem writableAt_of_vacant {path : String} {location : Location}
    (hlocate : t.locate? path = some location) (hvacant : t.occupant? location = none) :
    t.WritableAt path :=
  ⟨location, hlocate, by simp [hvacant], fun id hid => by simp [hvacant] at hid⟩

theorem staged_of_truncate? {path : String} {permissions : UInt32} {file : FileId}
    (h : t.truncate? path permissions = some (file, t')) :
    ∃ location, Staged path location file t t' := by
  obtain ⟨location, hlocate, ⟨hentry, -, -, rfl⟩ | ⟨hentry, rfl, rfl⟩⟩ := truncate?_cases h
  · exact ⟨location, hlocate, .inl hentry, hentry,
      (keeps_setContents t _ []).mono (List.nil_subset _)⟩
  · have hnot : t.occupant? location ≠ some .directory := by
      rw [hentry]
      simp
    refine ⟨location, hlocate, .inr ⟨hentry, Nat.le_refl _⟩, ?_, keeps_addFile hnot _⟩
    exact (occupant?_addFile (ne_nil_of_occupant? hnot) _ location).trans (if_pos rfl)

theorem staged_of_lookup? {path : String} {file : FileId} (h : t.lookup? path = some (.file file)) :
    ∃ location, Staged path location file t t := by
  obtain ⟨location, hlocate, hentry⟩ := Option.bind_eq_some_iff.1 h
  exact ⟨location, hlocate, .inl hentry, hentry, .refl [location] file t⟩

namespace Staged

variable {path : String} {location : Location} {file : FileId} (h : Staged path location file t t')

include h

theorem setContents (bytes : Bytes) : Staged path location file t (t'.setContents file bytes) :=
  { h with keeps := h.keeps.trans ((keeps_setContents t' file bytes).mono (List.nil_subset _)) }

/-- The file at a staging path can be removed. -/
theorem erased : Erased path location file t ((t'.remove? path).getD t') := by
  have hremove : t'.remove? path = some (t'.unlink location) := by
    rw [remove?, h.keeps.locate?_eq, h.locate?_eq]
    simp only [h.after]
  have hne : location ≠ [] := ne_nil_of_occupant? (by rw [h.after]; simp)
  rw [hremove, Option.getD_some]
  exact ⟨h.locate?_eq, h.before, (occupant?_unlink hne location).trans (if_pos rfl),
    h.keeps.trans (keeps_unlink h.after file)⟩

/-- The file at a staging path takes the place of whatever file was at the target, and its former
place is free. -/
theorem rename? {target : String} (hrename : t'.rename? path target = some t'') :
    ∃ place, t.locate? target = some place ∧ t''.occupant? place = some (.file file) ∧
      (place ≠ location → t''.occupant? location = none) ∧ Keeps [location, place] file t t'' := by
  have hsource : t'.locate? path = some location := (h.keeps.locate?_eq path).trans h.locate?_eq
  unfold FileTree.rename? at hrename
  rw [hsource, h.keeps.locate?_eq target] at hrename
  cases hplace : t.locate? target with
  | none =>
    rw [hplace] at hrename
    cases hrename
  | some place =>
    rw [hplace] at hrename
    have hmoved : t'.occupant? place ≠ some .directory → ∀ hfile,
        (t'.moveFile location place file hfile).occupant? place = some (.file file) ∧
        (place ≠ location →
          (t'.moveFile location place file hfile).occupant? location = none) ∧
        Keeps [location, place] file t (t'.moveFile location place file hfile) := by
      intro hnot hfile
      have hoccupant := occupant?_moveFile hfile (ne_nil_of_occupant? hnot)
      refine ⟨(hoccupant place).trans (if_pos rfl), fun hne => ?_, ?_⟩
      · rw [hoccupant, if_neg hne, if_pos rfl]
      · exact (h.keeps.mono (by simp)).trans (keeps_moveFile hfile hnot file)
    refine ⟨place, rfl, ?_⟩
    simp only at hrename
    split at hrename
    next other old hfile hold =>
      obtain rfl : file = other := by
        have heq := h.after.symm.trans hfile
        cases heq
        rfl
      split at hrename
      next hsame =>
        -- no other place leads to this file
        cases hrename
        have hafter : t'.occupant? place = some (.file file) := by rw [hold, hsame]
        exact ⟨hafter, fun hne => absurd (t'.eq_of_occupant? hafter h.after) hne,
          h.keeps.mono (by simp)⟩
      · cases hrename
        exact hmoved (by rw [hold]; simp) hfile
    next other hfile hold =>
      obtain rfl : file = other := by
        have heq := h.after.symm.trans hfile
        cases heq
        rfl
      cases hrename
      exact hmoved (by rw [hold]; simp) hfile
    next hdirectory _ =>
      rw [h.after] at hdirectory
      cases hdirectory
    next hdirectory _ =>
      rw [h.after] at hdirectory
      cases hdirectory
    next => cases hrename

end Staged

theorem Staged.published {path : String} {location : Location} {file : FileId}
    (h : Staged (Path.staging path) location file t t')
    (hrename : t'.rename? (Path.staging path) path = some t'') :
    ∃ place, Published path location place file t t'' := by
  obtain ⟨place, hplace, hafter, hfree, hkeeps⟩ := h.rename? hrename
  have hne : place ≠ location := by
    rintro rfl
    exact locate?_staging_ne hplace h.locate?_eq
  exact ⟨place, h.locate?_eq, hplace, h.before, hfree hne, hafter, hkeeps⟩

namespace Published

variable {path : String} {location place : Location} {file : FileId}
  (h : Published path location place file t t')

include h

theorem lookup?_eq : t'.lookup? path = some (.file file) :=
  lookup?_of_locate? ((h.keeps.locate?_eq path).trans h.target_eq) h.after

theorem lookup?_staging : t'.lookup? (Path.staging path) = none := by
  rw [lookup?, h.keeps.locate?_eq, h.staging_eq]
  exact h.free

end Published

namespace Erased

variable {path : String} {location : Location} {file : FileId} (h : Erased path location file t t')

include h

theorem lookup?_eq_none : t'.lookup? path = none := by
  rw [lookup?, h.keeps.locate?_eq, h.locate?_eq]
  exact h.after

theorem ne_of_locate?_ne {other : String} (hne : t.locate? other ≠ t.locate? path) :
    ∀ place ∈ [location], t.locate? other ≠ some place := by
  intro place hplace
  rw [List.mem_singleton.1 hplace, ← h.locate?_eq]
  exact hne

/-- Only the staging path leads to anything else. -/
theorem file?_eq {other : String} (hne : t.locate? other ≠ t.locate? path) :
    t'.file? other = t.file? other := by
  refine h.keeps.file?_eq (h.ne_of_locate?_ne hne) fun hfile => ?_
  obtain ⟨place, hplace, hentry⟩ := Option.bind_eq_some_iff.1 hfile
  rcases h.before with hbefore | ⟨-, hle⟩
  · rw [t.eq_of_occupant? hentry hbefore, ← h.locate?_eq] at hplace
    exact hne hplace
  · exact absurd (t.lt_of_occupant? hentry) (Nat.not_lt.2 hle)

/-- If there was nothing at the staging path, no path at all leads to anything else. -/
theorem file?_eq_of_lookup?_eq_none (hnone : t.lookup? path = none) (other : String) :
    t'.file? other = t.file? other := by
  by_cases hsame : t.locate? other = t.locate? path
  · have hbefore : t.lookup? other = none := by
      rw [lookup?, hsame]
      exact hnone
    have hafter : t'.lookup? other = none := by
      rw [lookup?, h.keeps.locate?_eq, hsame, h.locate?_eq]
      exact h.after
    rw [file?, file?, hbefore, hafter]
  · exact h.file?_eq hsame

end Erased

end FileTree

/-! ## Regions -/

namespace Region

open FileTree (Staged Erased)

/-- A region is created wherever its file can be written, if its request is valid. -/
theorem exists_create (config : RegionConfig) (t : FileTree)
    (hvalid : { config with path := t.resolve config.path : RegionConfig }.validate = .ok ())
    (hwritable : t.WritableAt config.writePath) (hsize : config.size < maxFileSize) :
    ∃ region t', create config t = (.ok region, t') := by
  obtain ⟨file, t₁, htruncate⟩ := (FileTree.writableAt_iff config.permissions).1 hwritable
  simp only [create, hvalid, htruncate, if_neg (Nat.not_le.2 hsize)]
  exact ⟨_, _, rfl⟩

/-- In an empty tree a region can be created. -/
theorem exists_create_empty {size : Nat} (hroom : headerSize < size) (hsize : size < maxFileSize) :
    ∃ region t, create { path := "node", size } {} = (.ok region, t) := by
  have hresolve : ({} : FileTree).resolve "node" = "node" := rfl
  have hnamed : (Path.fileName? "node").isSome = true := rfl
  have hlocation : ({} : FileTree).locate? (Path.staging "node") = some ["node.partial"] := rfl
  refine exists_create { path := "node", size } {} ?_
    (FileTree.writableAt_of_vacant hlocation rfl) hsize
  rw [hresolve]
  exact RegionConfig.validate_eq_ok.2 ⟨by simp, hroom, fun _ => hnamed⟩

/-- A region that was created has its file under the path where it is written. -/
theorem staged_of_create {config : RegionConfig} {t t' : FileTree} {region : Region}
    (h : create config t = (.ok region, t')) :
    ∃ location, Staged config.writePath location region.file t t' := by
  obtain ⟨-, -, -, opened, htruncate, rfl⟩ := create_eq_ok h
  obtain ⟨location, hstaged⟩ := FileTree.staged_of_truncate? htruncate
  exact ⟨location, hstaged.setContents _⟩

/-- A staged region that cannot be created leaves nothing under its staging path. -/
theorem erased_of_create_error {config : RegionConfig} {t t' : FileTree} {e : Error}
    (hpath : config.writePath ≠ config.path) (h : create config t = (.error e, t')) :
    t' = t ∨ ∃ location file, Erased config.writePath location file t t' := by
  unfold create at h
  split at h
  · cases h
    exact .inl rfl
  · simp only at h
    split at h
    · cases h
      exact .inl rfl
    next file t₁ htruncate =>
      obtain ⟨location, hstaged⟩ := FileTree.staged_of_truncate? htruncate
      split at h
      · rw [if_pos (bne_iff_ne.2 hpath)] at h
        cases h
        exact .inr ⟨location, file, hstaged.erased⟩
      · cases h

namespace Fresh

variable {config : RegionConfig} {region : Region} {t : FileTree} (h : Fresh config region t)

include h

theorem store_eq (w : Window) : region.store w t =
    t.setContents region.file ((t.contents region.file).take headerSize ++ w.bytes) := by
  rw [store, if_neg (by rw [h.access_eq]; decide)]

theorem staging_of_ne (hpath : config.writePath ≠ config.path) :
    region.staging = some config.writePath :=
  h.staging_cases.elim (fun heq => absurd heq.1 hpath) And.right

theorem discard_eq (hpath : config.writePath ≠ config.path) (t' : FileTree) :
    region.discard t' = (t'.remove? config.writePath).getD t' := by
  simp only [discard, h.staging_of_ne hpath]

/-- Publishing a staged region flushes it and renames its file, or changes nothing. -/
theorem publish_cases (hpath : config.writePath ≠ config.path) {cursor : Nat} {region' : Region}
    {t' t'' : FileTree} {outcome : Except Error Unit}
    (hpublish : { region with cursor }.publish t' = (outcome, region', t'')) :
    (outcome = .ok () ∧ t'.syncs = true ∧
        t'.rename? config.writePath config.path = some t'') ∨
      (∃ e, outcome = .error e) ∧ region' = { region with cursor } ∧ t'' = t' := by
  have hsome := h.staging_of_ne hpath
  rcases Region.publish_cases hpublish with
    herror | ⟨hok, hflush, ⟨hnone, -⟩ | ⟨staging, hstaging, -, hrename⟩⟩
  · exact .inr herror
  · cases hsome.symm.trans hnone
  · cases hsome.symm.trans hstaging
    rw [show ({ region with cursor } : Region).path = config.path from h.path_eq] at hrename
    exact .inl ⟨hok, syncs_of_flush h.access_eq hflush, hrename⟩

end Fresh

end Region

end HardwareMap
