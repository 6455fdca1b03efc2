import HardwareMap.Proofs.Region.FileTree

/-!
# What a step on a file tree leaves alone

`FileTree.Keeps` is the frame of a step: the locations where it may change an entry, and the one
file object whose bytes it may change; permissions stay.  Writing, adding, removing and moving a file
each have such a frame, and frames compose (`Keeps.trans`).
-/

namespace HardwareMap

namespace FileTree

variable {t t' t'' : FileTree}

theorem lt_of_lookup? (t : FileTree) {path : String} {id : FileId}
    (h : t.lookup? path = some (.file id)) : id < t.files.size := by
  obtain ⟨location, -, hentry⟩ := Option.bind_eq_some_iff.1 h
  exact t.lt_of_occupant? hentry

/-- From one tree to the other the entries change at some places at most, and of the files that were
there the bytes of one at most.  Directories and permissions stay. -/
structure Keeps (places : List Location) (file : FileId) (t t' : FileTree) : Prop where
  sameDirectories : SameDirectories t t'
  occupant?_eq : ∀ location, location ∉ places → t'.occupant? location = t.occupant? location
  object_eq : ∀ id, id < t.files.size → id ≠ file → t'.object id = t.object id
  permissions_eq : ∀ id, id < t.files.size →
    (t'.object id).permissions = (t.object id).permissions
  size_le : t.files.size ≤ t'.files.size

namespace Keeps

variable {places places' : List Location} {file : FileId}

theorem refl (places : List Location) (file : FileId) (t : FileTree) : Keeps places file t t :=
  ⟨.refl t, fun _ _ => rfl, fun _ _ _ => rfl, fun _ _ => rfl, Nat.le_refl _⟩

theorem mono (h : Keeps places file t t') (hsub : places ⊆ places') : Keeps places' file t t' :=
  { h with occupant?_eq := fun location hnot => h.occupant?_eq location fun hmem => hnot (hsub hmem) }

theorem trans (h : Keeps places file t t') (h' : Keeps places file t' t'') :
    Keeps places file t t'' where
  sameDirectories := h.sameDirectories.trans h'.sameDirectories
  occupant?_eq := fun location hnot =>
    (h'.occupant?_eq location hnot).trans (h.occupant?_eq location hnot)
  object_eq := fun id hid hne =>
    (h'.object_eq id (Nat.lt_of_lt_of_le hid h.size_le) hne).trans (h.object_eq id hid hne)
  permissions_eq := fun id hid =>
    (h'.permissions_eq id (Nat.lt_of_lt_of_le hid h.size_le)).trans (h.permissions_eq id hid)
  size_le := Nat.le_trans h.size_le h'.size_le

theorem locate?_eq (h : Keeps places file t t') (path : String) : t'.locate? path = t.locate? path :=
  locate?_congr h.sameDirectories path

theorem may_eq (h : Keeps places file t t') {id : FileId} (hid : id < t.files.size) (bit : UInt32) :
    t'.may bit id = t.may bit id :=
  may_congr h.sameDirectories.privileged_eq (h.permissions_eq id hid) bit

/-- A path that leads to another place leads to the same entry as before. -/
theorem lookup?_eq (h : Keeps places file t t') {path : String}
    (hnot : ∀ location ∈ places, t.locate? path ≠ some location) :
    t'.lookup? path = t.lookup? path := by
  rw [lookup?, lookup?, h.locate?_eq]
  cases hlocate : t.locate? path with
  | none => rfl
  | some location =>
    exact h.occupant?_eq location fun hmem => hnot location hmem hlocate

/-- A path that leads to another place and another file leads to the same file as before. -/
theorem file?_eq (h : Keeps places file t t') {path : String}
    (hnot : ∀ location ∈ places, t.locate? path ≠ some location)
    (hfile : t.lookup? path ≠ some (.file file)) : t'.file? path = t.file? path := by
  rw [file?, file?, h.lookup?_eq hnot]
  rcases hlookup : t.lookup? path with _ | ⟨id⟩ | _
  · rfl
  · have hne : id ≠ file := by
      rintro rfl
      exact hfile hlookup
    simp only [h.object_eq id (t.lt_of_lookup? hlookup) hne]
  · rfl

end Keeps

/-! ## Single steps -/

theorem keeps_setContents (t : FileTree) (id : FileId) (bytes : Bytes) :
    Keeps [] id t (t.setContents id bytes) where
  sameDirectories := sameDirectories_setContents t id bytes
  occupant?_eq := fun _ _ => rfl
  object_eq := fun _ _ hne => object_setContents_of_ne (Ne.symm hne) bytes
  permissions_eq := fun other hother => by
    by_cases heq : id = other
    · subst heq
      rw [object_setContents hother]
    · rw [object_setContents_of_ne heq]
  size_le := Nat.le_of_eq (by rw [setContents, Array.size_modify])

theorem keeps_addFile {location : Location} (h : t.occupant? location ≠ some .directory)
    (file : FileObject) : Keeps [location] t.files.size t (t.addFile location file).2 where
  sameDirectories := sameDirectories_addFile h file
  occupant?_eq := fun other hnot => by
    rw [occupant?_addFile (ne_nil_of_occupant? h),
      if_neg fun heq => hnot (List.mem_singleton.2 heq.symm)]
  object_eq := fun _ hid _ => object_addFile_of_lt hid location file
  permissions_eq := fun _ hid => by rw [object_addFile_of_lt hid]
  size_le := by
    rw [addFile, Array.size_push]
    exact Nat.le_succ _

theorem occupant?_unlink {location : Location} (hne : location ≠ []) (other : Location) :
    (t.unlink location).occupant? other =
      if location = other then none else t.occupant? other := by
  rw [occupant?, unlink, SortedMap.get?_erase, occupant?]
  by_cases h : location = other
  · subst h
    rw [if_neg hne, if_pos rfl, if_pos rfl]
  · rw [if_neg h, if_neg h]

theorem keeps_unlink {location : Location} {id : FileId}
    (h : t.occupant? location = some (.file id)) (file : FileId) :
    Keeps [location] file t (t.unlink location) := by
  have hnot : t.occupant? location ≠ some .directory := by
    rw [h]
    simp
  have hunlink := occupant?_unlink (t := t) (ne_nil_of_occupant? hnot)
  refine ⟨⟨rfl, rfl, rfl, fun other => ?_⟩, fun other hmem => ?_, fun _ _ _ => rfl, fun _ _ => rfl,
    Nat.le_refl _⟩
  · rw [isDirectory, hunlink]
    by_cases heq : location = other
    · subst heq
      rw [if_pos rfl, isDirectory_of_occupant? hnot]
      rfl
    · rw [if_neg heq]
      rfl
  · rw [hunlink, if_neg fun heq => hmem (List.mem_singleton.2 heq.symm)]

theorem keeps_moveFile {source target : Location} {id : FileId}
    (h : t.occupant? source = some (.file id)) (hnot : t.occupant? target ≠ some .directory)
    (file : FileId) : Keeps [source, target] file t (t.moveFile source target id h) := by
  refine ⟨sameDirectories_moveFile h hnot, fun other hmem => ?_, fun _ _ _ => rfl, fun _ _ => rfl,
    Nat.le_refl _⟩
  rw [List.mem_cons, List.mem_singleton, not_or] at hmem
  rw [occupant?_moveFile h (ne_nil_of_occupant? hnot), if_neg (Ne.symm hmem.2),
    if_neg (Ne.symm hmem.1)]

end FileTree

end HardwareMap
