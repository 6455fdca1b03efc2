import HardwareMap.Proofs.Layout.Safety
import HardwareMap.Proofs.Region.Invariant

/-!
# Bounds checks in exact arithmetic

Offsets, lengths and counts are machine words that anyone may have chosen, so their sums and products
need not be machine words.  The checks notice this, and come to the same as comparing the numbers
themselves: `Reader.range_eq` says so of a range, and what is read at an offset, the move of the
cursor, the overwriting of bytes and the reading of a child table all follow it
(`Region.checks_exact`).
-/

namespace HardwareMap

variable {α : Type}

/-! ## Readers -/

namespace Reader

variable {bytes : Bytes} (hlen : bytes.length < UInt64.size)

include hlen

/-- A sum that is no machine word is past the end of the region too. -/
theorem range_eq (offset len cursor : Nat) :
    range offset len bytes cursor =
      if offset + len ≤ bytes.length then .ok (offset + len) cursor
      else .error (.malformed offset (.pastEnd len bytes.length)) cursor := by
  by_cases hle : offset + len ≤ bytes.length
  · rw [if_pos hle]
    exact range_eq_ok.2 ⟨Nat.lt_of_le_of_lt hle hlen, hle, rfl, rfl⟩
  · rw [if_neg hle]
    by_cases hsum : offset + len < UInt64.size
    · simp only [range, checkedAdd?, if_pos hsum]
      change (if offset + len ≤ bytes.length then (Pure.pure (offset + len) : Reader Nat)
        else fail offset (.pastEnd len bytes.length)) bytes cursor = _
      rw [if_neg hle]
      rfl
    · simp only [range, checkedAdd?, if_neg hsum]
      rfl

theorem bytesAt_eq_ite (offset len cursor : Nat) :
    bytesAt offset len bytes cursor =
      if offset + len ≤ bytes.length then .ok (bytes.slice offset len) cursor
      else .error (.malformed offset (.pastEnd len bytes.length)) cursor := by
  by_cases hle : offset + len ≤ bytes.length
  · rw [if_pos hle]
    exact bytesAt_eq hlen hle cursor
  · have hrange := range_eq hlen offset len cursor
    rw [if_neg hle] at hrange ⊢
    exact bind_of_error (m := range offset len bytes) hrange

theorem seek_eq_ite (offset cursor : Nat) :
    seek offset bytes cursor =
      if offset ≤ bytes.length then .ok () offset
      else .error (.malformed offset (.pastEnd 0 bytes.length)) cursor := by
  by_cases hle : offset ≤ bytes.length
  · rw [if_pos hle]
    exact seek_eq hlen hle cursor
  · have hrange := range_eq hlen offset 0 cursor
    rw [if_neg (by simpa using hle)] at hrange
    rw [if_neg hle]
    exact bind_of_error (m := (discard (range offset 0) : Reader Unit) bytes)
      (bind_of_error (m := range offset 0 bytes) hrange)

end Reader

/-! ## Child tables -/

/-- A part of a part. -/
theorem Bytes.slice_slice {bytes : Bytes} {offset len start n : Nat} (h : start + n ≤ len) :
    (bytes.slice offset len).slice start n = bytes.slice (offset + start) n := by
  simp only [slice, List.drop_take, List.drop_drop, List.take_take]
  congr 1
  omega

namespace ChildTable

theorem wordsOf_eq_map (count : Nat) (bytes : Bytes) :
    wordsOf count bytes =
      (List.range count).map fun i => Bytes.ofLittleEndian (bytes.slice (8 * i) 8) := by
  induction count generalizing bytes with
  | zero => rfl
  | succ count ih =>
    rw [wordsOf, ih, List.range_succ_eq_map, List.map_cons, List.map_map]
    refine congrArg (Bytes.ofLittleEndian (bytes.take wordSize) :: ·) ?_
    apply List.map_congr_left
    intro i _
    simp only [Function.comp, Bytes.slice, List.drop_drop]
    congr 3
    simp only [wordSize]
    omega

/-- What a table is refused for: its length is no machine word, or it runs past the end. -/
def fault (t : ChildTable) (size : Nat) : Malformed :=
  match t.size? with
  | none => .childCountOverflow
  | some len => .pastEnd len size

/-- The offsets in a table are the words that stand in it, one after another. -/
theorem offsets_eq_ite (t : ChildTable) {bytes : Bytes} (hlen : bytes.length < UInt64.size)
    (cursor : Nat) :
    t.offsets bytes cursor =
      if t.offset + 8 * t.count ≤ bytes.length then
        .ok ((List.range t.count).map fun i =>
          Bytes.ofLittleEndian (bytes.slice (t.offset + 8 * i) 8)) cursor
      else .error (.malformed t.offset (t.fault bytes.length)) cursor := by
  unfold offsets fault size? checkedMul?
  by_cases hsize : t.count * wordSize < UInt64.size
  · have hat := Reader.bytesAt_eq_ite hlen t.offset (t.count * wordSize) cursor
    have hcomm : t.count * wordSize = 8 * t.count := Nat.mul_comm _ _
    simp only [if_pos hsize]
    by_cases hle : t.offset + 8 * t.count ≤ bytes.length
    · rw [hcomm, if_pos hle] at hat
      rw [if_pos hle, hcomm]
      refine Reader.bind_eq_ok.2 ⟨_, _, hat, ?_⟩
      refine congrArg (EStateM.Result.ok · cursor) ?_
      rw [wordsOf_eq_map]
      apply List.map_congr_left
      intro i hi
      rw [Bytes.slice_slice (by have := List.mem_range.1 hi; omega)]
    · rw [hcomm, if_neg hle] at hat
      rw [if_neg hle, hcomm]
      exact bind_of_error (m := Reader.bytesAt t.offset (8 * t.count) bytes) hat
  · have hle : ¬ t.offset + 8 * t.count ≤ bytes.length := by
      simp only [wordSize] at hsize
      omega
    simp only [if_neg hsize, if_neg hle]
    rfl

end ChildTable

/-! ## Writing -/

/-- What is overwritten is checked like what is read, in machine words. -/
theorem Writer.patch_eq_range {w : Window} (hlen : w.bytes.length < UInt64.size) (offset : Nat)
    (data : Bytes) :
    patch offset data w =
      match Reader.range offset data.length w.bytes w.cursor with
      | .error _ _ => .error (.insufficientSpace data.length w.size) w
      | .ok _ _ =>
        if w.access = .read then .error (.misuse .readOnly) w
        else .ok () { w with bytes := w.bytes.splice offset data } := by
  rw [Reader.range_eq hlen, patch, Window.size]
  by_cases hle : offset + data.length ≤ w.bytes.length
  · simp only [if_pos hle, if_neg (Nat.not_lt.2 hle)]
  · simp only [if_neg hle, if_pos (Nat.lt_of_not_le hle)]

/-! ## Operations that read -/

namespace Operation

variable {w w' : Window}

theorem orderly_reading {reader : Reader α} {post : α → Nat → Prop} {e : Error}
    (hreader : Orderly post (reader w.bytes w.cursor))
    (h : Writer.reading reader w = .error e w') : ∃ offset fault, e = .malformed offset fault := by
  unfold Writer.reading at h
  cases hrun : reader w.bytes w.cursor with
  | ok a cursor =>
    rw [hrun] at h
    cases h
  | error e' cursor =>
    rw [hrun] at h hreader
    cases h
    exact hreader

/-- An operation that stores nothing can only fail because of what it reads. -/
theorem malformed_of_error {op : Operation α} {e : Error} (hlen : w.bytes.length < UInt64.size)
    (hcursor : w.cursor ≤ w.bytes.length) (hstores : op.stores? w = none)
    (h : op.perform w = .error e w') : ∃ offset fault, e = .malformed offset fault := by
  cases op with
  | seek offset => exact orderly_reading (Reader.orderly_seek offset) h
  | readBytes len => exact orderly_reading (Reader.advances_bytes len _ _ hlen hcursor) h
  | readWord α => exact orderly_reading (Reader.advances_word α _ _ hlen hcursor) h
  | readText => exact orderly_reading (Reader.advances_text _ _ hlen hcursor) h
  | bytesAt offset len => exact orderly_reading (Reader.orderly_bytesAt offset len) h
  | wordAt α offset => exact orderly_reading (Reader.orderly_wordAt α offset) h
  | _ => cases hstores

end Operation

/-! ## Regions -/

namespace Region

/-- Reading moves the cursor at most. -/
theorem run_reading (r : Region) (reader : Reader α) (t : FileTree) :
    r.run (Writer.reading reader) t =
      match reader (r.window t).bytes r.cursor with
      | .ok a cursor => (.ok a, { r with cursor }, t)
      | .error e cursor => (.error e, { r with cursor }, t) := by
  have hstore (cursor : Nat) : r.store { r.window t with cursor } t = t := r.store_window t
  have hcursor : (r.window t).cursor = r.cursor := rfl
  unfold run Writer.reading
  rw [hcursor]
  cases reader (r.window t).bytes r.cursor with
  | ok a cursor => simp only [hstore]
  | error e cursor => simp only [hstore]

/-- **Bounds checks in exact arithmetic**: take a region, opened or created, whatever was done to it
since.  Whatever the offset and the length, and however large their sum is, the cursor is moved, bytes
are handed out and bytes are overwritten exactly if the range is inside of the region; and a child
table is read exactly if the whole table is, whatever the number of its children, and then its words
are those that stand there one after another.  In any other case nothing happens, and whatever fails to
read says at which offset the bytes are malformed. -/
theorem checks_exact {r : Region} {t : FileTree} (h : r.Sound t) :
    let bytes := (r.window t).bytes
    let size := r.regionSize
    (∀ offset, r.run (Operation.seek offset).perform t =
      if offset ≤ size then (.ok (), { r with cursor := offset }, t)
      else (.error (.malformed offset (.pastEnd 0 size)), r, t)) ∧
    (∀ offset len, r.run (Operation.bytesAt offset len).perform t =
      if offset + len ≤ size then (.ok (bytes.slice offset len), r, t)
      else (.error (.malformed offset (.pastEnd len size)), r, t)) ∧
    (r.access = .write → ∀ offset data, r.run (Operation.patchBytes offset data).perform t =
      if offset + data.length ≤ size then
        (.ok (), r, r.store { r.window t with bytes := bytes.splice offset data } t)
      else (.error (.insufficientSpace data.length size), r, t)) ∧
    (∀ table : ChildTable, r.run (Writer.reading table.offsets) t =
      if table.offset + 8 * table.count ≤ size then
        (.ok ((List.range table.count).map fun i =>
          Bytes.ofLittleEndian (bytes.slice (table.offset + 8 * i) 8)), r, t)
      else (.error (.malformed table.offset (table.fault size)), r, t)) ∧
    ∀ {α : Type} (op : Operation α) e, op.stores? (r.window t) = none →
      (r.run op.perform t).1 = .error e → ∃ offset fault, e = .malformed offset fault := by
  intro bytes size
  have hlen : bytes.length < UInt64.size := h.length_window_lt
  have hsize : bytes.length = size := h.length_window
  refine ⟨fun offset => ?_, fun offset len => ?_, fun hwrite offset data => ?_, fun table => ?_,
    fun op e hstores hrun => ?_⟩
  · rw [Operation.perform, run_reading, Reader.seek_eq_ite hlen, hsize]
    by_cases hle : offset ≤ size
    · simp only [if_pos hle]
    · simp only [if_neg hle]
  · rw [Operation.perform, run_reading, Reader.bytesAt_eq_ite hlen, hsize]
    by_cases hle : offset + len ≤ size
    · simp only [if_pos hle]
    · simp only [if_neg hle]
  · have haccess : (r.window t).access ≠ .read := by
      show r.access ≠ .read
      rw [hwrite]
      decide
    have hpatch := Writer.patch_eq_range hlen offset data
    rw [Reader.range_eq hlen, hsize] at hpatch
    rw [Operation.perform, run, hpatch]
    by_cases hle : offset + data.length ≤ size
    · simp only [if_pos hle, if_neg haccess]
      rfl
    · simp only [if_neg hle, Window.size]
      rw [store_window, show (r.window t).bytes.length = size from hsize]
      rfl
  · rw [run_reading, ChildTable.offsets_eq_ite table hlen, hsize]
    by_cases hle : table.offset + 8 * table.count ≤ size
    · simp only [if_pos hle]
    · simp only [if_neg hle]
  · unfold run at hrun
    cases hperform : op.perform (r.window t) with
    | ok a w =>
      rw [hperform] at hrun
      cases hrun
    | error e' w =>
      rw [hperform] at hrun
      cases hrun
      exact Operation.malformed_of_error hlen h.cursor_window hstores hperform

/-- In a region of two words a table of no children may start at the very end; a table whose length would
come to zero in machine words is refused, and so are bytes whose end would come to seven. -/
theorem checks_exact_words :
    ∃ r t, create { path := "region", size := 24 } {} = (.ok r, t) ∧
      r.run (Writer.reading (ChildTable.offsets { offset := 16, count := 0 })) t = (.ok [], r, t) ∧
      r.run (Writer.reading (ChildTable.offsets { offset := 16, count := UInt64.size / 8 })) t =
        (.error (.malformed 16 .childCountOverflow), r, t) ∧
      r.run (Operation.bytesAt (UInt64.size - 1) 8).perform t =
        (.error (.malformed (UInt64.size - 1) (.pastEnd 8 16)), r, t) := by
  obtain ⟨r, t, hcreate⟩ : ∃ r t,
      create { path := "region", size := 24 } {} = (.ok r, t) := ⟨_, _, rfl⟩
  obtain ⟨-, hbytes, -, htable, -⟩ := checks_exact (sound_of_create hcreate)
  have hsize : r.regionSize = 16 := by
    cases hcreate
    rfl
  rw [hsize] at hbytes htable
  exact ⟨r, t, hcreate, (htable _).trans (if_pos (by decide)), (htable _).trans (if_neg (by decide)),
    (hbytes _ _).trans (if_neg (by decide))⟩

end Region

end HardwareMap
