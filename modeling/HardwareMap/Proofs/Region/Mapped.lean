import HardwareMap.Proofs.Region.Appends
import HardwareMap.Proofs.Region.FileTree
import HardwareMap.Region.Mapped

/-!
# A region from its creation to its import

A new region is a run of zero bytes behind a header that holds the length of the file
(`Region.Fresh`).  Writing the region keeps the header, and publishing lets the final path lead to
the file, so whoever opens that path afterwards maps the bytes that were written
(`Region.openExisting_fileOf`).
-/

namespace HardwareMap

theorem RegionConfig.validate_eq_ok {config : RegionConfig} :
    config.validate = .ok () ↔ config.path ≠ "" ∧ headerSize < config.size ∧
      (config.publishByRename = true → (Path.fileName? config.path).isSome) := by
  unfold validate
  by_cases hpath : config.path = ""
  · simp [hpath]
  · by_cases hsize : config.size ≤ headerSize
    · simp [hpath, hsize, Nat.not_lt.2 hsize]
    · simp [hpath, hsize, Nat.lt_of_not_le hsize, Option.isSome_iff_ne_none]

/-- Whether the file of a region will be one that may be read.  A file that is there already has to be
one; a new file gets the permissions of the request. -/
def RegionConfig.readable (config : RegionConfig) (t : FileTree) : Bool :=
  (t.lookup? config.writePath).isSome || t.allows config.permissions ownerReads

/-- The permissions that a request has by default let the file be read and written. -/
theorem FileTree.allows_default (t : FileTree) {bit : UInt32}
    (hbit : bit = ownerReads ∨ bit = ownerWrites) : t.allows 0o600 bit = true := by
  have hallowed : ((0o600 : UInt32) &&& bit != 0) = true := by rcases hbit with rfl | rfl <;> decide
  rw [allows, hallowed, Bool.or_true]

theorem RegionConfig.readable_default (path : String) (size : Nat) (t : FileTree) :
    RegionConfig.readable { path, size } t = true := by
  rw [readable, show t.allows _ ownerReads = true from t.allows_default (.inl rfl), Bool.or_true]

namespace Region

theorem length_fileOf (bytes : Bytes) : (fileOf bytes).length = headerSize + bytes.length := by
  rw [fileOf, List.length_append, Word.length_toBytes]
  rfl

theorem take_fileOf (bytes : Bytes) :
    (fileOf bytes).take headerSize = Word.toBytes (UInt64.ofNat (headerSize + bytes.length)) := by
  have hlen : (Word.toBytes (UInt64.ofNat (headerSize + bytes.length))).length = headerSize :=
    Word.length_toBytes _
  exact List.take_left' hlen

theorem drop_fileOf (bytes : Bytes) : (fileOf bytes).drop headerSize = bytes := by
  have hlen : (Word.toBytes (UInt64.ofNat (headerSize + bytes.length))).length = headerSize :=
    Word.length_toBytes _
  exact List.drop_left' hlen

/-- The header of a file holds its length. -/
theorem ofLittleEndian_fileOf {bytes : Bytes} (hlen : headerSize + bytes.length < UInt64.size) :
    Bytes.ofLittleEndian ((fileOf bytes).take headerSize) = (fileOf bytes).length := by
  rw [take_fileOf, Word.toBytes, Bytes.ofLittleEndian_littleEndian (Word.code_lt _), length_fileOf]
  exact UInt64.toNat_ofNat_of_lt' hlen

/-- A file whose header holds its length has a region behind it. -/
theorem fileOf_drop {bytes : Bytes} (hle : headerSize ≤ bytes.length)
    (hrecorded : Bytes.ofLittleEndian (bytes.take headerSize) = bytes.length) :
    fileOf (bytes.drop headerSize) = bytes ∧
      headerSize + (bytes.drop headerSize).length < UInt64.size := by
  have hheader : (bytes.take headerSize).length = headerSize := List.length_take_of_le hle
  have hlt := Bytes.ofLittleEndian_lt (bytes.take headerSize)
  rw [hheader, hrecorded] at hlt
  have hlen : headerSize + (bytes.drop headerSize).length = bytes.length := by
    rw [List.length_drop]
    exact Nat.add_sub_cancel' hle
  have hword : (UInt64.ofNat bytes.length).toNat = bytes.length := UInt64.toNat_ofNat_of_lt' hlt
  have hstored : Word.toBytes (UInt64.ofNat bytes.length) = bytes.take headerSize := by
    have hsame := Bytes.littleEndian_ofLittleEndian (bytes.take headerSize)
    rw [hheader, hrecorded] at hsame
    rw [← hsame, ← hword]
    simp only [Word.toBytes, UInt64.ofNat_toNat]
    rfl
  rw [fileOf, hlen, hstored, List.take_append_drop]
  exact ⟨rfl, hlt⟩

/-- What a region starts with is found behind the header. -/
theorem slice_fileOf (data rest : Bytes) :
    (fileOf (data ++ rest)).slice headerSize data.length = data := by
  rw [Bytes.slice, drop_fileOf, List.take_left]

/-- A region as it is created: writable and zero, its file found where it is to be written. -/
structure Fresh (config : RegionConfig) (region : Region) (t : FileTree) : Prop where
  path_eq : region.path = config.path
  access_eq : region.access = .write
  cursor_eq : region.cursor = 0
  staging_eq : region.staging =
    if config.writePath != config.path then some config.writePath else none
  size_lt : headerSize < config.size ∧ config.size < maxFileSize
  lookup_eq : t.lookup? config.writePath = some (.file region.file)
  file_lt : region.file < t.files.size
  contents_eq : t.contents region.file = fileOf (Bytes.zeros (config.size - headerSize))

section Create

variable {config : RegionConfig} {t t' : FileTree} {region : Region}

/-- A region that was created has a valid request, and the file that was opened for it. -/
theorem create_eq_ok (h : create config t = (.ok region, t')) :
    { config with path := t.resolve config.path : RegionConfig }.validate = .ok () ∧
      config.size < maxFileSize ∧
      region =
        { path := config.path
          fileSize := config.size
          access := .write
          file := region.file
          staging := if config.writePath != config.path then some config.writePath else none } ∧
      ∃ opened, t.truncate? config.writePath config.permissions = some (region.file, opened) ∧
        t' = opened.setContents region.file (fileOf (Bytes.zeros (config.size - headerSize))) := by
  unfold create at h
  split at h
  · cases h
  next hvalid =>
    simp only at h
    split at h
    · cases h
    next htruncate =>
      split at h
      · cases h
      next hsize =>
        cases h
        exact ⟨hvalid, Nat.lt_of_not_le hsize, rfl, _, htruncate, rfl⟩

theorem fresh_of_create (h : create config t = (.ok region, t')) : Fresh config region t' := by
  obtain ⟨hvalid, hsize, hregion, opened, htruncate, rfl⟩ := create_eq_ok h
  obtain ⟨-, hlookup, hlt⟩ := FileTree.truncate?_eq_some htruncate
  have hset := FileTree.sameDirectories_setContents opened region.file
    (fileOf (Bytes.zeros (config.size - headerSize)))
  exact {
    path_eq := by rw [hregion]
    access_eq := by rw [hregion]
    cursor_eq := by rw [hregion]
    staging_eq := by rw [hregion]
    size_lt := ⟨(RegionConfig.validate_eq_ok.1 hvalid).2.1, hsize⟩
    lookup_eq := by
      rw [FileTree.lookup?, FileTree.locate?_congr hset]
      exact hlookup
    file_lt := by
      rw [FileTree.setContents, Array.size_modify]
      exact hlt
    contents_eq := FileTree.contents_setContents hlt _ }

/-- The file of a new region may be read and written as its request has it. -/
theorem may_of_create (h : create config t = (.ok region, t')) {bit : UInt32}
    (hbit : bit = ownerReads ∨ bit = ownerWrites) :
    t'.may bit region.file =
      ((t.lookup? config.writePath).isSome || t.allows config.permissions bit) := by
  obtain ⟨-, -, -, opened, htruncate, rfl⟩ := create_eq_ok h
  have hlt := (FileTree.truncate?_eq_some htruncate).2.2
  have hset := FileTree.sameDirectories_setContents opened region.file
    (fileOf (Bytes.zeros (config.size - headerSize)))
  have hpermissions := congrArg FileObject.permissions (FileTree.object_setContents hlt
    (fileOf (Bytes.zeros (config.size - headerSize))))
  exact (FileTree.may_congr hset.privileged_eq hpermissions bit).trans
    (FileTree.may_of_truncate? htruncate hbit)

theorem readable_of_create (h : create config t = (.ok region, t')) :
    t'.may ownerReads region.file = config.readable t := may_of_create h (.inl rfl)

end Create

/-! ### Flushing and publishing -/

theorem flush_of_syncs {t : FileTree} (h : t.syncs = true) (r : Region) : r.flush t = .ok () := by
  rw [flush, h]
  simp

/-- A region that may be written is flushed only to a device that takes what is flushed. -/
theorem syncs_of_flush {r : Region} {t : FileTree} (haccess : r.access = .write)
    (h : r.flush t = .ok ()) : t.syncs = true := by
  cases hsyncs : t.syncs with
  | true => rfl
  | false =>
    rw [flush, haccess, hsyncs] at h
    cases h

/-- What publishing does: it fails and changes nothing, or the region was published already and stays as
it is, or the staging file is renamed over the target. -/
theorem publish_cases {r r' : Region} {t t' : FileTree} {outcome : Except Error Unit}
    (h : r.publish t = (outcome, r', t')) :
    (∃ e, outcome = .error e) ∧ r' = r ∧ t' = t ∨
      outcome = .ok () ∧ r.flush t = .ok () ∧
        (r.staging = none ∧ r' = r ∧ t' = t ∨
          ∃ staging, r.staging = some staging ∧ r' = { r with staging := none } ∧
            t.rename? staging r.path = some t') := by
  unfold publish at h
  split at h
  · cases h
    exact .inl ⟨⟨_, rfl⟩, rfl, rfl⟩
  next hflush =>
    split at h
    next hstaging =>
      cases h
      exact .inr ⟨rfl, hflush, .inl ⟨hstaging, rfl, rfl⟩⟩
    next staging hstaging =>
      split at h
      · cases h
        exact .inl ⟨⟨_, rfl⟩, rfl, rfl⟩
      next hrename =>
        cases h
        exact .inr ⟨rfl, hflush, .inr ⟨staging, hstaging, rfl, hrename⟩⟩

/-- A region is published if it can be flushed and its staging file can be renamed. -/
theorem publish_of_rename? {r : Region} {t t' : FileTree} {staging : String}
    (hflush : r.flush t = .ok ()) (hstaging : r.staging = some staging)
    (hrename : t.rename? staging r.path = some t') :
    r.publish t = (.ok (), { r with staging := none }, t') := by
  simp only [publish, hflush, hstaging, hrename]

/-- Publishing a region once more flushes it and changes nothing. -/
theorem publish_of_staging_eq_none {r : Region} (h : r.staging = none) (t : FileTree) :
    r.publish t = (r.flush t, r, t) := by
  unfold publish
  cases hflush : r.flush t with
  | error e => rfl
  | ok _ => simp only [h]

namespace Fresh

variable {config : RegionConfig} {region : Region} {t : FileTree} (h : Fresh config region t)

include h

/-- The file is written where it is to be found, or under a staging path. -/
theorem staging_cases : config.writePath = config.path ∧ region.staging = none ∨
    config.writePath ≠ config.path ∧ region.staging = some config.writePath := by
  rw [h.staging_eq]
  by_cases hpath : config.writePath = config.path
  · exact .inl ⟨hpath, if_neg (by simp [hpath])⟩
  · exact .inr ⟨hpath, if_pos (bne_iff_ne.2 hpath)⟩

theorem window_eq : region.window t =
    { access := .write, bytes := Bytes.zeros (config.size - headerSize), cursor := 0 } := by
  rw [window, h.access_eq, h.cursor_eq, h.contents_eq, drop_fileOf]

theorem cursor_window : (region.window t).cursor = 0 := by rw [h.window_eq]

theorem writable : (region.window t).Writable := by
  rw [h.window_eq]
  exact ⟨rfl, Nat.zero_le _⟩

/-- Storing the bytes of a window that is as long as the region keeps the header in front. -/
theorem contents_store {w : Window} (hlen : w.bytes.length = config.size - headerSize) :
    (region.store w t).contents region.file = fileOf w.bytes := by
  rw [store, if_neg (by rw [h.access_eq]; decide), FileTree.contents_setContents h.file_lt,
    h.contents_eq, take_fileOf, fileOf, Bytes.length_zeros, hlen]

theorem may_store (w : Window) (bit : UInt32) :
    (region.store w t).may bit region.file = t.may bit region.file := by
  rw [store, if_neg (by rw [h.access_eq]; decide)]
  refine FileTree.may_congr (FileTree.sameDirectories_setContents ..).privileged_eq ?_ bit
  rw [FileTree.object_setContents h.file_lt]

theorem lookup_store (w : Window) :
    (region.store w t).lookup? config.writePath = some (.file region.file) := by
  rw [store, if_neg (by rw [h.access_eq]; decide), FileTree.lookup?,
    FileTree.locate?_congr (FileTree.sameDirectories_setContents ..)]
  exact h.lookup_eq

/-- A published region is found at its path, with the bytes that were stored and the permissions of its
file. -/
theorem lookup_publish {w : Window} {cursor : Nat} {region' : Region} {t' : FileTree}
    (hpublish : { region with cursor }.publish (region.store w t) = (.ok (), region', t')) :
    t'.lookup? config.path = some (.file region.file) ∧
      t'.contents region.file = (region.store w t).contents region.file ∧
      ∀ bit, t'.may bit region.file = t.may bit region.file := by
  have hlookup := h.lookup_store w
  have hmay := h.may_store w
  rcases publish_cases hpublish with
    ⟨⟨e, herror⟩, -⟩ | ⟨-, -, ⟨hstaging, -, rfl⟩ | ⟨staging, hstaging, -, hrename⟩⟩
  · cases herror
  · rcases h.staging_cases with ⟨hpath, -⟩ | ⟨-, hsome⟩
    · rw [hpath] at hlookup
      exact ⟨hlookup, rfl, hmay⟩
    · cases hsome.symm.trans hstaging
  · rcases h.staging_cases with ⟨-, hnone⟩ | ⟨-, hsome⟩
    · cases hnone.symm.trans hstaging
    · cases hsome.symm.trans hstaging
      rw [show ({ region with cursor } : Region).path = config.path from h.path_eq] at hrename
      obtain ⟨hfound, hfiles, hprivileged⟩ := FileTree.rename?_eq_some hrename hlookup
      have hobject : t'.object region.file = (region.store w t).object region.file := by
        rw [FileTree.object, FileTree.object, hfiles]
      have hpermissions := congrArg FileObject.permissions hobject
      exact ⟨hfound, congrArg FileObject.bytes hobject, fun bit =>
        (FileTree.may_congr hprivileged hpermissions bit).trans (hmay bit)⟩

/-- A new region can be published if its device takes it, unless its path leads to a directory. -/
theorem exists_publish (hsyncs : t.syncs = true) {location : Location}
    (hlocation : t.locate? config.path = some location)
    (hnot : t.occupant? location ≠ some .directory) (w : Window) (cursor : Nat) :
    ∃ region' t', { region with cursor }.publish (region.store w t) = (.ok (), region', t') := by
  have hstore : region.store w t =
      t.setContents region.file ((t.contents region.file).take headerSize ++ w.bytes) :=
    if_neg (by rw [h.access_eq]; decide)
  have htarget : (region.store w t).locate? config.path = some location := by
    rw [hstore, FileTree.locate?_congr (FileTree.sameDirectories_setContents ..), hlocation]
  have hfree : (region.store w t).occupant? location ≠ some .directory := by
    rw [hstore]
    exact hnot
  obtain ⟨t', hrename⟩ := FileTree.exists_rename? (h.lookup_store w) htarget hfree
  have hflush : { region with cursor }.flush (region.store w t) = .ok () := by
    refine flush_of_syncs ?_ _
    rw [hstore]
    exact hsyncs
  rcases h.staging_cases with ⟨-, hstaging⟩ | ⟨-, hstaging⟩
  · have hpublish := publish_of_staging_eq_none (r := { region with cursor }) hstaging
    exact ⟨_, _, (hpublish (region.store w t)).trans (by rw [hflush])⟩
  · rw [← h.path_eq] at hrename
    exact ⟨_, _, publish_of_rename? (r := { region with cursor }) hflush hstaging hrename⟩

end Fresh

/-- A file that was opened may be read, and its header holds its length. -/
theorem openExisting_eq_ok {path : String} {t : FileTree} {region : Region}
    (h : openExisting path t = .ok region) :
    t.lookup? path = some (.file region.file) ∧ t.may ownerReads region.file = true ∧
      headerSize ≤ (t.contents region.file).length ∧
      Bytes.ofLittleEndian ((t.contents region.file).take headerSize) =
        (t.contents region.file).length ∧
      region = { path, fileSize := (t.contents region.file).length, access := .read,
                 file := region.file } := by
  unfold openExisting at h
  split at h
  · cases h
  · cases h
  next file hlookup =>
    simp only at h
    split at h
    · cases h
    next hmay =>
      split at h
      · cases h
      next hlong =>
        split at h
        next hrecorded =>
          cases h
          exact ⟨hlookup, by simpa using hmay, Nat.le_of_not_lt hlong, hrecorded, rfl⟩
        · cases h

/-- A file with a header that holds its length is mapped if it may be read, and its region is what is
behind it. -/
theorem openExisting_fileOf {path : String} {t : FileTree} {file : FileId} {bytes : Bytes}
    (hlookup : t.lookup? path = some (.file file)) (hcontents : t.contents file = fileOf bytes)
    (hlen : headerSize + bytes.length < UInt64.size) :
    ∃ region : Region, region.view t = .ok bytes ∧ openExisting path t =
      if t.may ownerReads file then .ok region else .error (.io .openExisting none) := by
  have hrecorded := ofLittleEndian_fileOf hlen
  have hnot : ¬ (fileOf bytes).length < headerSize := by
    rw [length_fileOf]
    omega
  refine ⟨{ path, fileSize := (fileOf bytes).length, access := .read, file }, ?_, ?_⟩
  · simp only [view, hcontents]
    rw [if_neg hnot, drop_fileOf]
  · simp only [openExisting, hlookup, hcontents]
    rw [if_neg hnot, if_pos hrecorded]
    cases t.may ownerReads file <;> rfl

/-- A file that may be read is mapped, and its region is what is behind the header, or its header is at
fault. -/
theorem openExisting_cases {path : String} {t : FileTree} {bytes : Bytes}
    (h : t.read? path = some bytes) :
    (∃ offset fault, openExisting path t = .error (.malformed offset fault)) ∨
      ∃ region : Region, openExisting path t = .ok region ∧
        region.view t = .ok (bytes.drop headerSize) ∧ (bytes.drop headerSize).length < UInt64.size := by
  obtain ⟨file, hlookup, hmay, rfl⟩ := FileTree.read?_eq_some.1 h
  simp only [openExisting, hlookup, hmay]
  rw [if_neg (by decide)]
  by_cases hshort : (t.contents file).length < headerSize
  · exact .inl ⟨0, .shorterThanHeader (t.contents file).length, if_pos hshort⟩
  · let recorded := Bytes.ofLittleEndian ((t.contents file).take headerSize)
    rw [if_neg hshort]
    by_cases hrecorded : recorded = (t.contents file).length
    · rw [if_pos hrecorded]
      obtain ⟨-, hlt⟩ := fileOf_drop (Nat.le_of_not_lt hshort) hrecorded
      exact .inr ⟨_, rfl, if_neg hshort, Nat.lt_of_le_of_lt (Nat.le_add_left _ _) hlt⟩
    · rw [if_neg hrecorded]
      exact .inl ⟨0, .lengthMismatch recorded (t.contents file).length, rfl⟩

theorem view_congr {r : Region} {t t' : FileTree} (h : t'.object r.file = t.object r.file) :
    r.view t' = r.view t := by
  have hcontents : t'.contents r.file = t.contents r.file := congrArg FileObject.bytes h
  simp only [view, hcontents]

/-- Opening a path depends on the file that it leads to, and on whether permissions matter. -/
theorem openExisting_congr {path : String} {t t' : FileTree}
    (hprivileged : t'.privileged = t.privileged) (hlookup : t'.lookup? path = t.lookup? path)
    (hobject : ∀ id, t.lookup? path = some (.file id) → t'.object id = t.object id) :
    openExisting path t' = openExisting path t := by
  unfold openExisting
  rw [hlookup]
  rcases hentry : t.lookup? path with _ | ⟨id⟩ | _
  · rfl
  · have hmay := FileTree.may_congr hprivileged
      (congrArg FileObject.permissions (hobject id hentry)) ownerReads
    have hcontents : t'.contents id = t.contents id :=
      congrArg FileObject.bytes (hobject id hentry)
    dsimp only
    rw [hmay, hcontents]
  · rfl

end Region

end HardwareMap
