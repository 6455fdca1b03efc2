import HardwareMap.Region.FileTree

/-!
# Where paths lead after a change of the tree

A path is followed from directory to directory, so it leads to the same location as long as the
directories stay (`FileTree.locate?_congr`).  Opening a file for writing and renaming a file keep the
directories; afterwards the path, or the target of the renaming, leads to the file.
-/

namespace HardwareMap

namespace FileTree

/-- Two trees with the same directories, for the same process on the same device. -/
structure SameDirectories (t t' : FileTree) : Prop where
  top_eq : t'.top = t.top
  privileged_eq : t'.privileged = t.privileged
  syncs_eq : t'.syncs = t.syncs
  isDirectory_eq : ∀ location, t'.isDirectory location = t.isDirectory location

variable {t t' t'' : FileTree}

/-- A location that is not the top and leads to no directory may lead to a file. -/
theorem isDirectory_of_occupant? {location : Location}
    (h : t.occupant? location ≠ some .directory) : t.isDirectory location = false := by
  rw [isDirectory]
  exact beq_eq_false_iff_ne.2 h

namespace SameDirectories

theorem refl (t : FileTree) : SameDirectories t t := ⟨rfl, rfl, rfl, fun _ => rfl⟩

theorem trans (h : SameDirectories t t') (h' : SameDirectories t' t'') : SameDirectories t t'' where
  top_eq := h'.top_eq.trans h.top_eq
  privileged_eq := h'.privileged_eq.trans h.privileged_eq
  syncs_eq := h'.syncs_eq.trans h.syncs_eq
  isDirectory_eq := fun location => (h'.isDirectory_eq location).trans (h.isDirectory_eq location)

theorem symm (h : SameDirectories t t') : SameDirectories t' t where
  top_eq := h.top_eq.symm
  privileged_eq := h.privileged_eq.symm
  syncs_eq := h.syncs_eq.symm
  isDirectory_eq := fun location => (h.isDirectory_eq location).symm

/-- Where there was no directory there is none now. -/
theorem occupant?_ne (h : SameDirectories t t') {location : Location}
    (hnot : t.occupant? location ≠ some .directory) : t'.occupant? location ≠ some .directory := by
  have hsame := h.isDirectory_eq location
  rw [isDirectory_of_occupant? hnot] at hsame
  exact beq_eq_false_iff_ne.1 hsame

end SameDirectories

theorem follow_congr (h : SameDirectories t t') (names : List String) (here : Location) :
    t'.follow names here = t.follow names here := by
  induction names generalizing here with
  | nil => rfl
  | cons name rest ih =>
    rw [follow, follow, h.isDirectory_eq]
    simp only [ih]

theorem locate?_congr (h : SameDirectories t t') (path : String) :
    t'.locate? path = t.locate? path := by
  have hpath : t'.isPath path = t.isPath path := by
    rw [isPath, isPath, resolve, resolve, h.top_eq]
  rw [locate?, locate?, hpath]
  split
  · rfl
  · split
    · rfl
    · rfl
    · exact follow_congr h _ _

theorem lookup?_of_locate? {path : String} {location : Location} {entry : Entry}
    (h : t.locate? path = some location) (hentry : t.occupant? location = some entry) :
    t.lookup? path = some entry := by
  rw [lookup?, h]
  exact hentry

/-- A path reads the bytes of the file that it leads to, if that one may be read. -/
theorem read?_eq_some {path : String} {bytes : Bytes} :
    t.read? path = some bytes ↔ ∃ id, t.lookup? path = some (.file id) ∧
      t.may ownerReads id = true ∧ t.contents id = bytes := by
  unfold read?
  split
  next id hlookup => by_cases hmay : t.may ownerReads id <;> simp [hlookup, hmay]
  next hnot =>
    refine iff_of_false (by simp) ?_
    rintro ⟨id, hlookup, -⟩
    exact hnot id hlookup

/-- What a path reads depends on the file that it leads to, and on whether permissions matter. -/
theorem read?_congr {path : String} (hprivileged : t'.privileged = t.privileged)
    (hfile : t'.file? path = t.file? path) : t'.read? path = t.read? path := by
  have hread (s : FileTree) : s.read? path = (s.file? path).bind fun file =>
      if s.allows file.permissions ownerReads then some file.bytes else none := by
    unfold read? file?
    rcases s.lookup? path with _ | ⟨id⟩ | _ <;> rfl
  have hallows : t'.allows = t.allows := by
    funext permissions bit
    rw [allows, allows, hprivileged]
  rw [hread, hread, hfile, hallows]

/-- Whether a file may be opened depends on its permissions, and on whether they matter. -/
theorem may_congr {id other : FileId} (hprivileged : t'.privileged = t.privileged)
    (hpermissions : (t'.object other).permissions = (t.object id).permissions) (bit : UInt32) :
    t'.may bit other = t.may bit id := by
  rw [may, may, allows, allows, hprivileged, hpermissions]

theorem object_setContents {id : FileId} (h : id < t.files.size) (bytes : Bytes) :
    (t.setContents id bytes).object id = { t.object id with bytes } := by
  rw [object, object, setContents, Array.getElem?_modify, if_pos rfl, Array.getElem?_eq_getElem h]
  rfl

theorem contents_setContents {id : FileId} (h : id < t.files.size) (bytes : Bytes) :
    (t.setContents id bytes).contents id = bytes := by
  rw [contents, object_setContents h]

theorem object_setContents_of_ne {id other : FileId} (h : id ≠ other) (bytes : Bytes) :
    (t.setContents id bytes).object other = t.object other := by
  rw [object, object, setContents, Array.getElem?_modify, if_neg h]

theorem sameDirectories_setContents (t : FileTree) (id : FileId) (bytes : Bytes) :
    SameDirectories t (t.setContents id bytes) :=
  ⟨rfl, rfl, rfl, fun _ => rfl⟩

theorem object_addFile (t : FileTree) (location : Location) (file : FileObject) :
    (t.addFile location file).2.object t.files.size = file := by
  rw [object, addFile, Array.getElem?_push_size, Option.getD_some]

theorem object_addFile_of_lt {id : FileId} (h : id < t.files.size) (location : Location)
    (file : FileObject) : (t.addFile location file).2.object id = t.object id := by
  rw [object, object, addFile, Array.getElem?_push_lt h, Array.getElem?_eq_getElem h]

theorem occupant?_addFile {location : Location} (hne : location ≠ []) (file : FileObject)
    (other : Location) :
    (t.addFile location file).2.occupant? other =
      if location = other then some (.file t.files.size) else t.occupant? other := by
  rw [occupant?, addFile, SortedMap.get?_insert, occupant?]
  by_cases h : location = other
  · subst h
    rw [if_neg hne, if_pos rfl, if_pos rfl]
  · rw [if_neg h, if_neg h]

theorem ne_nil_of_occupant? {location : Location} (h : t.occupant? location ≠ some .directory) :
    location ≠ [] := by
  rintro rfl
  exact h rfl

theorem sameDirectories_addFile {location : Location} (h : t.occupant? location ≠ some .directory)
    (file : FileObject) : SameDirectories t (t.addFile location file).2 := by
  refine ⟨rfl, rfl, rfl, fun other => ?_⟩
  rw [isDirectory, occupant?_addFile (ne_nil_of_occupant? h)]
  by_cases heq : location = other
  · subst heq
    rw [if_pos rfl, isDirectory_of_occupant? h]
    rfl
  · rw [if_neg heq]
    rfl

/-- A file that is added to a tree is read at its location. -/
theorem read?_addFile {path : String} {location : Location} (hlocate : t.locate? path = some location)
    (hnot : t.occupant? location ≠ some .directory) (bytes : Bytes) :
    (t.addFile location { bytes }).2.read? path = some bytes := by
  have hlookup := lookup?_of_locate?
    ((locate?_congr (sameDirectories_addFile hnot { bytes }) path).trans hlocate)
    ((occupant?_addFile (ne_nil_of_occupant? hnot) { bytes } location).trans (if_pos rfl))
  have hallowed : ((ownerReads ||| ownerWrites) &&& ownerReads != 0) = true := by decide
  refine read?_eq_some.2 ⟨t.files.size, hlookup, ?_, ?_⟩
  · rw [may, object_addFile, allows, hallowed, Bool.or_true]
  · rw [contents, object_addFile]

/-- What opening a file for writing does: it empties the file that is there, which has to be one that
may be read and written, or adds one. -/
theorem truncate?_cases {path : String} {permissions : UInt32} {id : FileId}
    (h : t.truncate? path permissions = some (id, t')) :
    ∃ location, t.locate? path = some location ∧
      (t.occupant? location = some (.file id) ∧ t.may ownerReads id ∧ t.may ownerWrites id ∧
          t' = t.setContents id [] ∨
        t.occupant? location = none ∧ id = t.files.size ∧
          t' = (t.addFile location { bytes := [], permissions }).2) := by
  unfold truncate? at h
  split at h
  · cases h
  next location hlocate =>
    refine ⟨location, hlocate, ?_⟩
    split at h
    · cases h
    next other hentry =>
      split at h
      next hmay =>
        cases h
        rw [Bool.and_eq_true] at hmay
        exact .inl ⟨hentry, hmay.1, hmay.2, rfl⟩
      · cases h
    next hentry =>
      cases h
      exact .inr ⟨hentry, rfl, rfl⟩

/-- A file that was opened for writing is found at its path. -/
theorem truncate?_eq_some {path : String} {permissions : UInt32} {id : FileId}
    (h : t.truncate? path permissions = some (id, t')) :
    SameDirectories t t' ∧ t'.lookup? path = some (.file id) ∧ id < t'.files.size := by
  obtain ⟨location, hlocate, ⟨hentry, -, -, rfl⟩ | ⟨hentry, rfl, rfl⟩⟩ := truncate?_cases h
  · have hsame := sameDirectories_setContents t id []
    refine ⟨hsame, lookup?_of_locate? ((locate?_congr hsame path).trans hlocate) hentry, ?_⟩
    rw [setContents, Array.size_modify]
    exact t.lt_of_occupant? hentry
  · have hnot : t.occupant? location ≠ some .directory := by
      rw [hentry]
      simp
    have hsame := sameDirectories_addFile hnot { bytes := [], permissions }
    refine ⟨hsame, lookup?_of_locate? ((locate?_congr hsame path).trans hlocate) ?_, ?_⟩
    · exact (occupant?_addFile (ne_nil_of_occupant? hnot) _ location).trans (if_pos rfl)
    · rw [addFile, Array.size_push]
      exact Nat.lt_succ_self _

/-- A file that was opened for writing may be read and written, unless it was added with permissions that
do not allow it. -/
theorem may_of_truncate? {path : String} {permissions : UInt32} {id : FileId}
    (h : t.truncate? path permissions = some (id, t')) {bit : UInt32}
    (hbit : bit = ownerReads ∨ bit = ownerWrites) :
    t'.may bit id = ((t.lookup? path).isSome || t.allows permissions bit) := by
  obtain ⟨location, hlocate, ⟨hentry, hreads, hwrites, rfl⟩ | ⟨hentry, rfl, rfl⟩⟩ := truncate?_cases h
  · have hpermissions : ((t.setContents id []).object id).permissions = (t.object id).permissions := by
      rw [object_setContents (t.lt_of_occupant? hentry)]
    have hmay : t.may bit id = true := by rcases hbit with rfl | rfl <;> assumption
    rw [may_congr (sameDirectories_setContents t id []).privileged_eq hpermissions, hmay,
      lookup?_of_locate? hlocate hentry]
    rfl
  · rw [may, object_addFile, lookup?, hlocate, Option.bind_some, hentry]
    rfl

theorem occupant?_moveFile {source target : Location} {id : FileId}
    (h : t.occupant? source = some (.file id)) (hne : target ≠ []) (other : Location) :
    (t.moveFile source target id h).occupant? other =
      if target = other then some (.file id)
      else if source = other then none
      else t.occupant? other := by
  have hsource : source ≠ [] := ne_nil_of_occupant? (by rw [h]; simp)
  rw [occupant?, moveFile, SortedMap.get?_insert, SortedMap.get?_erase, occupant?]
  by_cases htarget : target = other
  · subst htarget
    rw [if_neg hne, if_pos rfl, if_pos rfl]
  · rw [if_neg htarget, if_neg htarget]
    by_cases heq : source = other
    · subst heq
      rw [if_neg hsource, if_pos rfl, if_pos rfl]
    · rw [if_neg heq, if_neg heq]

theorem sameDirectories_moveFile {source target : Location} {id : FileId}
    (h : t.occupant? source = some (.file id)) (hnot : t.occupant? target ≠ some .directory) :
    SameDirectories t (t.moveFile source target id h) := by
  refine ⟨rfl, rfl, rfl, fun other => ?_⟩
  rw [isDirectory, occupant?_moveFile h (ne_nil_of_occupant? hnot)]
  by_cases htarget : target = other
  · subst htarget
    rw [if_pos rfl, isDirectory_of_occupant? hnot]
    rfl
  · rw [if_neg htarget]
    by_cases heq : source = other
    · subst heq
      rw [if_pos rfl, isDirectory, h]
      rfl
    · rw [if_neg heq]
      rfl

/-- A file that was moved to the location of a path is found at that path. -/
theorem lookup?_moveFile {start location : Location} {target : String} {id : FileId}
    (h : t.occupant? start = some (.file id)) (hnot : t.occupant? location ≠ some .directory)
    (htarget : t.locate? target = some location) :
    (t.moveFile start location id h).lookup? target = some (.file id) := by
  have hsame := locate?_congr (sameDirectories_moveFile h hnot) target
  refine lookup?_of_locate? (hsame.trans htarget) ?_
  rw [occupant?_moveFile h (ne_nil_of_occupant? hnot), if_pos rfl]

/-- A file that was renamed is found at its new path. -/
theorem rename?_eq_some {source target : String} {id : FileId}
    (h : t.rename? source target = some t') (hsource : t.lookup? source = some (.file id)) :
    t'.lookup? target = some (.file id) ∧ t'.files = t.files ∧ t'.privileged = t.privileged := by
  unfold rename? at h
  split at h
  next start location hstart hlocation =>
    rw [lookup?, hstart, Option.bind_some] at hsource
    split at h
    next other old hfile hold =>
      obtain rfl : other = id := by
        rw [hsource] at hfile
        cases hfile
        rfl
      split at h
      next hsame =>
        cases h
        exact ⟨lookup?_of_locate? hlocation (by rw [hold, hsame]), rfl, rfl⟩
      · cases h
        exact ⟨lookup?_moveFile hfile (by rw [hold]; simp) hlocation, rfl, rfl⟩
    next other hfile hold =>
      obtain rfl : other = id := by
        rw [hsource] at hfile
        cases hfile
        rfl
      cases h
      exact ⟨lookup?_moveFile hfile (by rw [hold]; simp) hlocation, rfl, rfl⟩
    next hdirectory _ =>
      rw [hsource] at hdirectory
      cases hdirectory
    next hdirectory _ =>
      rw [hsource] at hdirectory
      cases hdirectory
    next => cases h
  · cases h

/-- A file can be renamed to wherever no directory is. -/
theorem exists_rename? {source target : String} {id : FileId} {location : Location}
    (hsource : t.lookup? source = some (.file id)) (htarget : t.locate? target = some location)
    (hnot : t.occupant? location ≠ some .directory) : ∃ t', t.rename? source target = some t' := by
  obtain ⟨origin, horigin, hentry⟩ := Option.bind_eq_some_iff.1 hsource
  unfold rename?
  rw [horigin, htarget]
  simp only
  split
  next =>
    split
    · exact ⟨_, rfl⟩
    · exact ⟨_, rfl⟩
  next => exact ⟨_, rfl⟩
  next hdirectory _ =>
    rw [hentry] at hdirectory
    cases hdirectory
  next hdirectory _ =>
    rw [hentry] at hdirectory
    cases hdirectory
  next hfile hnew _ _ =>
    cases hlast : t.occupant? location with
    | none => exact absurd hlast (hnew id hentry)
    | some entry =>
      cases entry with
      | file other => exact absurd hlast (hfile id other hentry)
      | directory => exact absurd hlast hnot

end FileTree

end HardwareMap
