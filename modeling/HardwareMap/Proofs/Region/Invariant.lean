import HardwareMap.Proofs.Region.Operations
import HardwareMap.Proofs.Region.Publishing

/-!
# What a region keeps

A region that was created or opened is sound (`Region.Sound`): its file holds its own length in its
header, and the cursor is inside.  Whatever operations follow, with any arguments, and whether they
succeed or fail, it stays sound (`Region.sound_of_activities`).  What an operation stores where, if it
succeeds, is known before (`Operation.stores?`): these bytes are changed and no others
(`Operation.Stored`).
-/

namespace HardwareMap

variable {α : Type}

/-! ## What an operation stores -/

namespace Operation

/-- The place and the bytes of an operation that writes. -/
def stores? : Operation α → Window → Option (Nat × Bytes)
  | writeBytes data, w => some (w.cursor, data)
  | writeWord a, w => some (w.cursor, Word.toBytes a)
  | writeText t, w => some (w.cursor, Utf8.stored t)
  | reserve len, w => some (w.cursor, Bytes.zeros len)
  | patchBytes offset data, _ => some (offset, data)
  | patchWord offset a, _ => some (offset, Word.toBytes a)
  | seek _, _ | readBytes _, _ | readWord _, _ | readText, _ | bytesAt .., _ | wordAt .., _ => none

/-- The window after an operation that succeeded: what it stores is at its place inside, in a window
that may be written; if it stores nothing then the bytes are the same. -/
structure Stored (stored : Option (Nat × Bytes)) (w w' : Window) : Prop where
  cursor_le : w'.cursor ≤ w'.bytes.length
  of_some : ∀ start data, stored = some (start, data) → w.access = .write ∧
    start + data.length ≤ w.bytes.length ∧ w'.bytes = w.bytes.splice start data
  of_none : stored = none → w'.bytes = w.bytes

end Operation

namespace Writer

variable {w w' : Window}

/-- Appended bytes are stored at the cursor. -/
theorem stored_append {data : Bytes} (hcursor : w.cursor ≤ w.bytes.length)
    (haccess : w.access = .write) (hroom : data.length ≤ w.remaining) :
    Operation.Stored (some (w.cursor, data)) w (w.append data) where
  cursor_le := (Window.writable_append ⟨haccess, hcursor⟩ hroom).cursor_le
  of_some := by
    rintro start _ ⟨⟩
    exact ⟨haccess, Window.le_length_of_le_remaining ⟨haccess, hcursor⟩ hroom, rfl⟩
  of_none h := by cases h

section Inside

variable (hcursor : w.cursor ≤ w.bytes.length)

include hcursor

theorem stored_bytes {data : Bytes} {start : Nat} (h : bytes data w = .ok start w') :
    Operation.Stored (some (w.cursor, data)) w w' := by
  unfold bytes at h
  split at h
  · cases h
  next hroom =>
    split at h
    · cases h
    next hread =>
      cases h
      exact stored_append hcursor (Access.eq_write hread) (Nat.le_of_not_lt hroom)

theorem stored_patch {offset : Nat} {data : Bytes} (h : patch offset data w = .ok () w') :
    Operation.Stored (some (offset, data)) w w' := by
  unfold patch at h
  split at h
  · cases h
  next hroom =>
    split at h
    · cases h
    next hread =>
      have hle : offset + data.length ≤ w.bytes.length := Nat.le_of_not_lt hroom
      cases h
      refine ⟨?_, ?_, fun hnone => by cases hnone⟩
      · rw [Bytes.length_splice hle]
        exact hcursor
      · rintro start _ ⟨⟩
        exact ⟨Access.eq_write hread, hle, rfl⟩

theorem stored_text {t : String} {start : Nat} (h : text t w = .ok start w') :
    Operation.Stored (some (w.cursor, Utf8.stored t)) w w' := by
  by_cases hwritten : Utf8.hasNul t = false ∧ (Utf8.encode t).length ≤ w.remaining ∧
      w.access = .write
  · obtain ⟨hnul, hroom, haccess⟩ := hwritten
    rw [text_eq hnul hroom haccess] at h
    split at h
    · cases h
    next hfull =>
      cases h
      have hfit : (Utf8.encode t ++ [0]).length ≤ w.remaining := by
        rw [List.length_append, List.length_singleton]
        omega
      rw [Window.append_append ⟨haccess, hcursor⟩ hfit]
      exact stored_append hcursor haccess hfit
  · obtain ⟨e, herror⟩ := text_eq_error hwritten
    rw [herror] at h
    cases h

end Inside

/-- A reading stores nothing, and leaves the cursor inside if its reader does. -/
theorem stored_reading {reader : Reader α} {a : α}
    (hreader : Orderly (fun _ cursor => cursor ≤ w.bytes.length) (reader w.bytes w.cursor))
    (h : reading reader w = .ok a w') : Operation.Stored none w w' := by
  unfold reading at h
  cases hrun : reader w.bytes w.cursor with
  | ok a' cursor =>
    rw [hrun] at h hreader
    cases h
    exact ⟨hreader, fun _ _ hsome => (by cases hsome), fun _ => rfl⟩
  | error e cursor =>
    rw [hrun] at h
    cases h

end Writer

namespace Operation

variable {w w' : Window} (hlen : w.bytes.length < UInt64.size)
  (hcursor : w.cursor ≤ w.bytes.length)

include hlen hcursor

/-- An operation that succeeds stores what it is to store, and nothing else. -/
theorem stored_of_ok {op : Operation α} {a : α} (h : op.perform w = .ok a w') :
    Stored (op.stores? w) w w' := by
  cases op with
  | seek offset =>
    refine Writer.stored_reading ((Reader.orderly_seek offset).mono ?_) h
    rintro _ _ ⟨hle, rfl⟩
    exact hle
  | writeBytes data => exact Writer.stored_bytes hcursor h
  | writeWord a => exact Writer.stored_bytes hcursor h
  | writeText t => exact Writer.stored_text hcursor h
  | reserve len =>
    rw [perform, Writer.reserve] at h
    split at h
    · cases h
    · exact Writer.stored_bytes hcursor h
  | patchBytes offset data => exact Writer.stored_patch hcursor h
  | patchWord offset a => exact Writer.stored_patch hcursor h
  | readBytes len =>
    exact Writer.stored_reading ((Reader.advances_bytes len _ _ hlen hcursor).mono
      fun _ _ hstep => hstep.2) h
  | readWord α =>
    exact Writer.stored_reading ((Reader.advances_word α _ _ hlen hcursor).mono
      fun _ _ hstep => hstep.2) h
  | readText =>
    exact Writer.stored_reading ((Reader.advances_text _ _ hlen hcursor).mono
      fun _ _ hstep => hstep.2) h
  | bytesAt offset len =>
    refine Writer.stored_reading ((Reader.orderly_bytesAt offset len).mono ?_) h
    rintro data cursor ⟨-, -, rfl⟩
    exact hcursor
  | wordAt α offset =>
    refine Writer.stored_reading ((Reader.orderly_wordAt α offset).mono ?_) h
    rintro a cursor ⟨-, rfl⟩
    exact hcursor

/-- Whether an operation succeeds or fails, the cursor is inside afterwards. -/
theorem cursor_le_after (op : Operation α) :
    (op.perform.after w).cursor ≤ (op.perform.after w).bytes.length := by
  unfold Writer.after
  cases hrun : op.perform w with
  | ok a w' => exact (stored_of_ok hlen hcursor hrun).cursor_le
  | error e w' =>
    cases hdata : op.unterminated? w with
    | none =>
      have hsteady := steady_perform hdata
      rw [hrun] at hsteady
      obtain rfl : w' = w := hsteady
      exact hcursor
    | some data =>
      obtain ⟨haccess, hroom⟩ := room_of_unterminated hdata
      have herror := (perform_eq_of_unterminated hdata).1
      rw [hrun] at herror
      cases herror
      exact (Writer.stored_append hcursor haccess hroom).cursor_le

end Operation

/-! ## Regions -/

namespace Region

/-- The cursor is inside of the region, and the file has the length of the region with its header and
says so there. -/
structure Sound (r : Region) (t : FileTree) : Prop where
  cursor_le : r.cursor ≤ r.regionSize
  file_lt : r.file < t.files.size
  fileSize_lt : r.fileSize < UInt64.size
  contents_eq : ∃ bytes, t.contents r.file = fileOf bytes ∧ headerSize + bytes.length = r.fileSize

theorem sound_of_create {config : RegionConfig} {r : Region} {t t' : FileTree}
    (h : create config t = (.ok r, t')) : r.Sound t' := by
  have hfresh := fresh_of_create h
  have hsize : r.fileSize = config.size := by rw [(create_eq_ok h).2.2.1]
  obtain ⟨hroom, hlt⟩ := hfresh.size_lt
  refine ⟨?_, hfresh.file_lt, ?_, _, hfresh.contents_eq, ?_⟩
  · rw [hfresh.cursor_eq]
    exact Nat.zero_le _
  · rw [hsize]
    exact Nat.lt_trans hlt (by decide)
  · rw [Bytes.length_zeros, hsize]
    omega

theorem sound_of_openExisting {path : String} {r : Region} {t : FileTree}
    (h : openExisting path t = .ok r) : r.Sound t := by
  obtain ⟨hlookup, -, hlong, hrecorded, hregion⟩ := openExisting_eq_ok h
  let header := (t.contents r.file).take headerSize
  let bytes := (t.contents r.file).drop headerSize
  have hheader : header.length = headerSize := List.length_take_of_le hlong
  have hlength : headerSize + bytes.length = (t.contents r.file).length := by
    rw [List.length_drop]
    omega
  have hsize : r.fileSize = (t.contents r.file).length := by rw [hregion]
  have hlt : (t.contents r.file).length < UInt64.size := by
    have hbound := Bytes.ofLittleEndian_lt header
    rw [hheader, show Bytes.ofLittleEndian header = _ from hrecorded] at hbound
    exact hbound
  refine ⟨?_, t.lt_of_lookup? hlookup, by rwa [hsize], bytes, ?_, hlength.trans hsize.symm⟩
  · rw [hregion]
    exact Nat.zero_le _
  · have hword : Word.toBytes (UInt64.ofNat (headerSize + bytes.length)) = header := by
      rw [hlength, ← show Bytes.ofLittleEndian header = _ from hrecorded]
      exact Word.toBytes_ofBytes hheader
    rw [fileOf, hword, List.take_append_drop]

namespace Sound

variable {r : Region} {t : FileTree} (h : r.Sound t)

include h

theorem length_window : (r.window t).bytes.length = r.regionSize := by
  obtain ⟨bytes, hcontents, hsize⟩ := h.contents_eq
  rw [window, hcontents, drop_fileOf, RegionInfo.regionSize, ← hsize, Nat.add_sub_cancel_left]

/-- The header holds the length of the file. -/
theorem header_eq : (t.contents r.file).length = r.fileSize ∧
    Bytes.ofLittleEndian ((t.contents r.file).take headerSize) = r.fileSize := by
  obtain ⟨bytes, hcontents, hsize⟩ := h.contents_eq
  have hlt := h.fileSize_lt
  rw [← hsize] at hlt
  rw [hcontents, ofLittleEndian_fileOf hlt, length_fileOf]
  exact ⟨hsize, hsize⟩

/-- A path that leads to the file can be opened if the file may be read, and the reader finds the bytes
of the region. -/
theorem exists_openExisting {path : String} (hlookup : t.lookup? path = some (.file r.file)) :
    ∃ reader, reader.view t = r.view t ∧ openExisting path t =
      if t.may ownerReads r.file then .ok reader else .error (.io .openExisting none) := by
  obtain ⟨bytes, hcontents, hsize⟩ := h.contents_eq
  have hlt := h.fileSize_lt
  rw [← hsize] at hlt
  obtain ⟨reader, hview, hopen⟩ := openExisting_fileOf hlookup hcontents hlt
  refine ⟨reader, hview.trans ?_, hopen⟩
  simp only [view, hcontents]
  rw [if_neg (by rw [length_fileOf]; omega), drop_fileOf]

theorem cursor_window : (r.window t).cursor ≤ (r.window t).bytes.length := by
  rw [h.length_window]
  exact h.cursor_le

theorem length_window_lt : (r.window t).bytes.length < UInt64.size := by
  rw [h.length_window]
  exact Nat.lt_of_le_of_lt (Nat.sub_le _ _) h.fileSize_lt

/-- Operations keep a region sound. -/
theorem run (op : Operation α) :
    (r.run op.perform t).2.1.Sound (r.run op.perform t).2.2 := by
  let w := op.perform.after (r.window t)
  have hshape := op.call_perform.keepsShape (r.window t)
  have hlen : w.bytes.length = r.regionSize := hshape.length_eq.trans h.length_window
  have hcursor : w.cursor ≤ w.bytes.length :=
    op.cursor_le_after h.length_window_lt h.cursor_window
  have hfile : r.file < (r.run op.perform t).2.2.files.size :=
    Nat.lt_of_lt_of_le h.file_lt (keeps_run r op.perform t).size_le
  rw [hlen] at hcursor
  rw [run_state] at hfile ⊢
  refine ⟨hcursor, hfile, h.fileSize_lt, ?_⟩
  obtain ⟨bytes, hcontents, hsize⟩ := h.contents_eq
  unfold store
  split
  · exact ⟨bytes, hcontents, hsize⟩
  · have hbytes : w.bytes.length = bytes.length := by
      rw [hlen, RegionInfo.regionSize, ← hsize, Nat.add_sub_cancel_left]
    refine ⟨w.bytes, ?_, by rw [hbytes, hsize]⟩
    rw [FileTree.contents_setContents h.file_lt, hcontents, take_fileOf, ← hbytes]
    rfl

end Sound

/-! ## Any number of operations -/

open FileTree (Retains)

/-- What may happen to a region whose file nobody else writes: an operation, which may fail, flushing,
and whatever others do to the rest of the tree. -/
inductive Activity : Region × FileTree → Region × FileTree → Prop
  | operation {α : Type} (op : Operation α) (r : Region) (t : FileTree) :
      Activity (r, t) (r.run op.perform t).2
  | flush {outcome : Except Error Unit} {r : Region} {t : FileTree} (h : r.flush t = outcome) :
      Activity (r, t) (r, t)
  | others {r : Region} {t t' : FileTree} (h : Retains [] (· = r.file) t t') :
      Activity (r, t) (r, t')

/-- The region is sound and the same as at first but for its cursor, its file may be opened as before, and
if it was opened for reading then the file has the same bytes. -/
structure Kept (s s' : Region × FileTree) : Prop where
  region_eq : s'.1 = { s.1 with cursor := s'.1.cursor }
  sound : s'.1.Sound s'.2
  may_eq : ∀ bit, s'.2.may bit s.1.file = s.2.may bit s.1.file
  contents_eq : s.1.access = .read → s'.2.contents s.1.file = s.2.contents s.1.file

theorem Kept.activity {s s' s'' : Region × FileTree} (h : Kept s s') (hstep : Activity s' s'') :
    Kept s s'' := by
  have hfile : s'.1.file = s.1.file := by rw [h.region_eq]
  have haccess : s'.1.access = s.1.access := by rw [h.region_eq]
  cases hstep with
  | operation op r t =>
    refine ⟨?_, h.sound.run op, fun bit => ?_, fun hread => ?_⟩
    · have hregion : r = { s.1 with cursor := r.cursor } := h.region_eq
      rw [run_state]
      exact congrArg (fun x : Region => { x with cursor := (op.perform.after (r.window t)).cursor })
        hregion
    · rw [← h.may_eq bit, ← hfile]
      exact (keeps_run r op.perform t).may_eq h.sound.file_lt bit
    · rw [run_state, store, if_pos (haccess.trans hread)]
      exact h.contents_eq hread
  | flush _ => exact h
  | @others r t t' hretains =>
    have hsame := hretains.contents_eq rfl h.sound.file_lt
    refine ⟨h.region_eq, ?_, fun bit => ?_, fun hread => ?_⟩
    · have hlt := Nat.lt_of_lt_of_le h.sound.file_lt hretains.size_le
      exact ⟨h.sound.cursor_le, hlt, h.sound.fileSize_lt, by rw [hsame]; exact h.sound.contents_eq⟩
    · rw [← h.may_eq bit, ← hfile]
      exact hretains.may_eq rfl h.sound.file_lt bit
    · rw [← hfile, hsame, hfile]
      exact h.contents_eq hread

theorem kept_of_activities {s s' : Region × FileTree} (hsound : s.1.Sound s.2)
    (hrun : Relation.ReflTransGen Activity s s') : Kept s s' := by
  induction hrun with
  | refl => exact ⟨rfl, hsound, fun _ => rfl, fun _ => rfl⟩
  | tail _ hstep ih => exact ih.activity hstep

/-! ## One more operation -/

namespace Sound

variable {r : Region} {t : FileTree} (h : r.Sound t)

include h

/-- A window that was put back is found again. -/
theorem window_store {w : Window} (hshape : (r.window t).SameShape w)
    (hread : r.access = .read → w.bytes = (r.window t).bytes) :
    window { r with cursor := w.cursor } (r.store w t) = w := by
  have hbytes : (r.store w t).contents r.file = (t.contents r.file).take headerSize ++ w.bytes := by
    unfold store
    split
    next haccess => rw [hread haccess, window, List.take_append_drop]
    · rw [FileTree.contents_setContents h.file_lt]
  have hheader : ((t.contents r.file).take headerSize).length = headerSize := by
    obtain ⟨bytes, hcontents, -⟩ := h.contents_eq
    rw [hcontents, take_fileOf, Word.length_toBytes]
    rfl
  have haccess : r.access = w.access := hshape.access_eq.symm
  simp only [window, hbytes, List.drop_left' hheader, haccess]

/-- An operation that succeeds changes the region where it stores something, and nothing else. -/
theorem stored_of_run {op : Operation α} {a : α} {r' : Region} {t' : FileTree}
    (hrun : r.run op.perform t = (.ok a, r', t')) :
    Operation.Stored (op.stores? (r.window t)) (r.window t) (r'.window t') := by
  unfold Region.run at hrun
  cases hperform : op.perform (r.window t) with
  | error e w =>
    rw [hperform] at hrun
    cases hrun
  | ok b w =>
    rw [hperform] at hrun
    cases hrun
    have hstored := Operation.stored_of_ok h.length_window_lt h.cursor_window hperform
    have hshape := op.call_perform.keepsShape (r.window t)
    rw [Writer.after, hperform] at hshape
    have hread : r.access = .read → w.bytes = (r.window t).bytes := by
      intro hread
      cases hstores : op.stores? (r.window t) with
      | none => exact hstored.of_none hstores
      | some stored =>
        have hwrite : r.access = .write := (hstored.of_some stored.1 stored.2 hstores).1
        rw [hread] at hwrite
        cases hwrite
    rw [h.window_store hshape hread]
    exact hstored

/-- The header stays, and so does all of the tree but the file of the region. -/
theorem header_run (op : Operation α) :
    ((r.run op.perform t).2.2.contents r.file).take headerSize =
      (t.contents r.file).take headerSize := by
  obtain ⟨bytes, hcontents, hsize⟩ := h.contents_eq
  obtain ⟨bytes', hcontents', hsize'⟩ := (h.run op).contents_eq
  rw [run_state] at hcontents' hsize' ⊢
  rw [show (r.store _ t).contents r.file = fileOf bytes' from hcontents', hcontents, take_fileOf,
    take_fileOf, hsize, show headerSize + bytes'.length = r.fileSize from hsize']

end Sound

end Region

end HardwareMap
