import HardwareMap.Proofs.Bytes.Splice
import HardwareMap.Proofs.Region.Appends
import HardwareMap.Region.Room

/-!
# Readers that find what they expect

`Reads m data a` says that a reader answers with `a` wherever `data` stands at its cursor, and passes
over exactly that.  It is stated for regions whose size is a 64-bit number, as every offset and count
in one is stored as such.  What a window was made to hold by appending it is read back from there
(`Reads.reading_append`).
-/

namespace HardwareMap

variable {α β : Type}

/-- Where `data` stands at the cursor the reader answers with `a` and passes over `data`. -/
def Reads (m : Reader α) (data : Bytes) (a : α) : Prop :=
  ∀ (bytes : Bytes) (cursor : Nat), bytes.length < UInt64.size → bytes.Holds cursor data →
    m bytes cursor = .ok a (cursor + data.length)

namespace Reads

variable {x y : Bytes}

/-- What is read is never longer than a 64-bit number can say. -/
theorem of_lt {m : Reader α} {a : α} (h : x.length < UInt64.size → Reads m x a) : Reads m x a := by
  intro bytes cursor hlen hx
  have hle := hx.le
  exact h (by omega) bytes cursor hlen hx

theorem pure (a : α) : Reads (Pure.pure a) [] a := fun _ _ _ _ => rfl

theorem bind {m : Reader α} {f : α → Reader β} {a : α} {b : β} (hm : Reads m x a)
    (hf : Reads (f a) y b) : Reads (m >>= f) (x ++ y) b := by
  intro bytes cursor hlen hxy
  refine Reader.bind_eq_ok.2 ⟨a, cursor + x.length, hm bytes cursor hlen hxy.left, ?_⟩
  rw [hf bytes (cursor + x.length) hlen hxy.right, List.length_append, Nat.add_assoc]

/-- What is read last may be followed by a step that reads nothing. -/
theorem bind_of_nil {m : Reader α} {f : α → Reader β} {a : α} {b : β} (hm : Reads m x a)
    (hf : Reads (f a) [] b) : Reads (m >>= f) x b := by
  have hbind := hm.bind hf
  rwa [List.append_nil] at hbind

theorem map {m : Reader α} {a : α} (hm : Reads m x a) (f : α → β) :
    Reads (do return f (← m)) x (f a) :=
  hm.bind_of_nil (Reads.pure (f a))

/-- Where something stands does not matter to what is read of it. -/
theorem position {f : Nat → Reader β} {b : β} (hf : ∀ start, Reads (f start) x b) :
    Reads (Reader.position >>= f) x b := by
  intro bytes cursor hlen hx
  exact Reader.bind_eq_ok.2 ⟨cursor, cursor, rfl, hf cursor bytes cursor hlen hx⟩

end Reads

/-! ## When a step answers -/

/-- The first zero byte of a string ends what stands before it. -/
theorem Bytes.findIdx?_zero_eq_some_iff {bytes : Bytes} {len : Nat} :
    bytes.findIdx? (· == 0) = some len ↔
      ∃ body rest, bytes = body ++ 0 :: rest ∧ 0 ∉ body ∧ body.length = len := by
  constructor
  · intro h
    obtain ⟨hlen, hzero, hbefore⟩ := List.findIdx?_eq_some_iff_getElem.1 h
    refine ⟨bytes.take len, bytes.drop (len + 1), ?_, fun hmem => ?_, ?_⟩
    · rw [← beq_iff_eq.1 hzero, ← List.drop_eq_getElem_cons hlen, List.take_append_drop]
    · obtain ⟨i, hi, hbyte⟩ := List.mem_take_iff_getElem.1 hmem
      exact hbefore i (by omega) (by simp [hbyte])
    · exact List.length_take_of_le (Nat.le_of_lt hlen)
  · rintro ⟨body, rest, rfl, hfree, rfl⟩
    have hnone : body.findIdx? (· == 0) = none :=
      List.findIdx?_eq_none_iff.2 fun byte hbyte => beq_eq_false_iff_ne.2 fun hzero =>
        hfree (hzero ▸ hbyte)
    rw [List.findIdx?_append, hnone, Option.none_or]
    exact congrArg some (Nat.zero_add _)

namespace Reader

theorem add_eq {m n : Nat} (h : m + n < UInt64.size) (bytes : Bytes) (cursor : Nat) :
    add m n bytes cursor = .ok (m + n) cursor := by
  simp only [add, checkedAdd?, if_pos h]
  rfl

theorem mul_eq {m n : Nat} (h : m * n < UInt64.size) (bytes : Bytes) (cursor : Nat) :
    mul m n bytes cursor = .ok (m * n) cursor := by
  simp only [mul, checkedMul?, if_pos h]
  rfl

theorem slice_eq {start stop : Nat} {bytes : Bytes} (hle : start ≤ stop)
    (hstop : stop ≤ bytes.length) (cursor : Nat) :
    slice start stop bytes cursor = .ok (bytes.slice start (stop - start)) cursor := by
  rw [slice, if_neg (Nat.not_lt.2 hle), if_neg (Nat.not_lt.2 hstop)]

section Answers

variable {bytes : Bytes} {offset len s s' : Nat}

theorem add_eq_ok {m n sum : Nat} :
    add m n bytes s = .ok sum s' ↔ m + n < UInt64.size ∧ sum = m + n ∧ s' = s := by
  constructor
  · intro h
    by_cases hword : m + n < UInt64.size
    · rw [add_eq hword] at h
      cases h
      exact ⟨hword, rfl, rfl⟩
    · rw [add, checkedAdd?, if_neg hword] at h
      cases h
  · rintro ⟨hword, rfl, rfl⟩
    exact add_eq hword bytes s'

theorem bytesAt_eq_ok {data : Bytes} :
    bytesAt offset len bytes s = .ok data s' ↔
      offset + len < UInt64.size ∧ offset + len ≤ bytes.length ∧
        data = bytes.slice offset len ∧ s' = s := by
  rw [bytesAt, bind_eq_ok]
  constructor
  · rintro ⟨stop, t, hrange, hslice⟩
    obtain ⟨hword, hle, rfl, rfl⟩ := range_eq_ok.1 hrange
    rw [slice_eq (Nat.le_add_right _ _) hle, Nat.add_sub_cancel_left] at hslice
    cases hslice
    exact ⟨hword, hle, rfl, rfl⟩
  · rintro ⟨hword, hle, rfl, rfl⟩
    refine ⟨offset + len, s', range_eq_ok.2 ⟨hword, hle, rfl, rfl⟩, ?_⟩
    rw [slice_eq (Nat.le_add_right _ _) hle, Nat.add_sub_cancel_left]

theorem bytes_eq_ok {data : Bytes} :
    Reader.bytes len bytes s = .ok data s' ↔
      s + len < UInt64.size ∧ s + len ≤ bytes.length ∧
        data = bytes.slice s len ∧ s' = s + len := by
  rw [Reader.bytes, bind_eq_ok]
  constructor
  · rintro ⟨_, _, ⟨⟩, h⟩
    obtain ⟨stop, t, hrange, h⟩ := bind_eq_ok.1 h
    obtain ⟨hword, hle, rfl, rfl⟩ := range_eq_ok.1 hrange
    obtain ⟨_, _, ⟨⟩, hslice⟩ := bind_eq_ok.1 h
    rw [slice_eq (Nat.le_add_right _ _) hle, Nat.add_sub_cancel_left] at hslice
    cases hslice
    exact ⟨hword, hle, rfl, rfl⟩
  · rintro ⟨hword, hle, rfl, rfl⟩
    refine ⟨s, s, rfl, bind_eq_ok.2 ⟨s + len, s, range_eq_ok.2 ⟨hword, hle, rfl, rfl⟩,
      bind_eq_ok.2 ⟨(), s + len, rfl, ?_⟩⟩⟩
    rw [slice_eq (Nat.le_add_right _ _) hle, Nat.add_sub_cancel_left]

/-- The cursor is only moved inside of the region. -/
theorem seek_eq_ok :
    seek offset bytes s = .ok () s' ↔
      offset < UInt64.size ∧ offset ≤ bytes.length ∧ s' = offset := by
  constructor
  · intro h
    obtain ⟨_, _, hdiscard, hmove⟩ := bind_eq_ok.1 h
    cases hmove
    obtain ⟨stop, _, hrange, -⟩ := bind_eq_ok.1
      (show (range offset 0 >>= fun _ => pure ()) bytes s = _ from hdiscard)
    obtain ⟨hword, hle, -⟩ := range_eq_ok.1 hrange
    exact ⟨hword, hle, rfl⟩
  · rintro ⟨hword, hle, rfl⟩
    have hdiscard : (range s' 0 >>= fun _ => pure ()) bytes s = .ok () s :=
      bind_eq_ok.2 ⟨s', s, range_eq_ok.2 ⟨hword, hle, rfl, rfl⟩, rfl⟩
    exact bind_eq_ok.2 ⟨(), s, hdiscard, rfl⟩

/-- Text that is read ends with the first zero byte, and its end is a machine word. -/
theorem text_eq_ok {t : String} :
    text bytes s = .ok t s' ↔ ∃ body rest, bytes.drop s = body ++ 0 :: rest ∧ 0 ∉ body ∧
      Utf8.decode? body = some t ∧ s + body.length + 1 < UInt64.size ∧ s' = s + body.length + 1 := by
  have htail (hle : s ≤ bytes.length) : sliceFrom s bytes s = .ok (bytes.drop s) s := by
    rw [sliceFrom, if_neg (Nat.not_lt.2 hle)]
  have hfront (body rest : Bytes) :
      front (body ++ 0 :: rest) body.length bytes s = .ok body s := by
    rw [front, if_neg (by rw [List.length_append]; omega), List.take_left]
    rfl
  rw [text, bind_eq_ok]
  constructor
  · rintro ⟨_, _, ⟨⟩, h⟩
    obtain ⟨tail, _, hslice, h⟩ := bind_eq_ok.1 h
    by_cases hstart : bytes.length < s
    · rw [sliceFrom, if_pos hstart] at hslice
      cases hslice
    rw [htail (Nat.le_of_not_lt hstart)] at hslice
    cases hslice
    cases hfind : (bytes.drop s).findIdx? (· == 0) with
    | none =>
      rw [hfind] at h
      cases h
    | some len =>
      obtain ⟨body, rest, hdrop, hfree, rfl⟩ := Bytes.findIdx?_zero_eq_some_iff.1 hfind
      simp only [hfind] at h
      rw [hdrop] at h
      obtain ⟨_, _, hfound, h⟩ := bind_eq_ok.1 h
      rw [hfront] at hfound
      cases hfound
      cases hdecode : Utf8.decode? body with
      | none =>
        rw [hdecode] at h
        cases h
      | some text =>
        rw [hdecode] at h
        obtain ⟨_, _, hsum, h⟩ := bind_eq_ok.1 h
        obtain ⟨-, rfl, rfl⟩ := add_eq_ok.1 hsum
        obtain ⟨_, _, hstop, h⟩ := bind_eq_ok.1 h
        obtain ⟨hword, rfl, rfl⟩ := add_eq_ok.1 hstop
        obtain ⟨_, _, ⟨⟩, ⟨⟩⟩ := bind_eq_ok.1 h
        exact ⟨body, rest, hdrop, hfree, hdecode, hword, rfl⟩
  · rintro ⟨body, rest, hdrop, hfree, hdecode, hword, rfl⟩
    have hle : s ≤ bytes.length :=
      Nat.le_of_lt (List.length_lt_of_drop_ne_nil (by rw [hdrop]; simp))
    have hfind : (bytes.drop s).findIdx? (· == 0) = some body.length :=
      Bytes.findIdx?_zero_eq_some_iff.2 ⟨body, rest, hdrop, hfree, rfl⟩
    refine ⟨s, s, rfl, bind_eq_ok.2 ⟨_, s, htail hle, ?_⟩⟩
    simp only [hfind]
    rw [hdrop]
    refine bind_eq_ok.2 ⟨body, s, hfront body rest, ?_⟩
    rw [hdecode]
    exact bind_eq_ok.2 ⟨_, s, add_eq_ok.2 ⟨by omega, rfl, rfl⟩,
      bind_eq_ok.2 ⟨_, s, add_eq_ok.2 ⟨hword, rfl, rfl⟩, bind_eq_ok.2 ⟨(), _, rfl, rfl⟩⟩⟩

variable [Word α] {a : α}

theorem wordAt_eq_ok :
    wordAt α offset bytes s = .ok a s' ↔
      offset + Word.width α < UInt64.size ∧ offset + Word.width α ≤ bytes.length ∧
        a = Word.ofBytes (bytes.slice offset (Word.width α)) ∧ s' = s := by
  have hcopy (hle : offset + Word.width α ≤ bytes.length) (t : Nat) :
      copy (bytes.slice offset (Word.width α)) (Word.width α) bytes t =
        .ok (bytes.slice offset (Word.width α)) t := by
    rw [copy, if_pos (Bytes.length_slice hle)]
    rfl
  rw [wordAt, bind_eq_ok]
  constructor
  · rintro ⟨data, t, hdata, h⟩
    obtain ⟨hword, hle, rfl, rfl⟩ := bytesAt_eq_ok.1 hdata
    obtain ⟨copied, t, hcopied, ⟨⟩⟩ := bind_eq_ok.1 h
    rw [hcopy hle] at hcopied
    cases hcopied
    exact ⟨hword, hle, rfl, rfl⟩
  · rintro ⟨hword, hle, rfl, rfl⟩
    exact ⟨_, s', bytesAt_eq_ok.2 ⟨hword, hle, rfl, rfl⟩,
      bind_eq_ok.2 ⟨_, s', hcopy hle s', rfl⟩⟩

/-- A word that is read lies inside of the region, and its end is a machine word. -/
theorem word_eq_ok :
    word α bytes s = .ok a s' ↔
      s + Word.width α < UInt64.size ∧ s + Word.width α ≤ bytes.length ∧
        a = Word.ofBytes (bytes.slice s (Word.width α)) ∧ s' = s + Word.width α := by
  rw [word, bind_eq_ok]
  constructor
  · rintro ⟨_, _, ⟨⟩, h⟩
    obtain ⟨found, t, hat, h⟩ := bind_eq_ok.1 h
    obtain ⟨hword, hle, rfl, rfl⟩ := wordAt_eq_ok.1 hat
    obtain ⟨stop, t, hadd, h⟩ := bind_eq_ok.1 h
    rw [add_eq hword] at hadd
    cases hadd
    obtain ⟨_, _, ⟨⟩, ⟨⟩⟩ := bind_eq_ok.1 h
    exact ⟨hword, hle, rfl, rfl⟩
  · rintro ⟨hword, hle, rfl, rfl⟩
    exact ⟨s, s, rfl, bind_eq_ok.2 ⟨_, s, wordAt_eq_ok.2 ⟨hword, hle, rfl, rfl⟩,
      bind_eq_ok.2 ⟨_, s, add_eq hword bytes s, rfl⟩⟩⟩

end Answers

/-! ### Inside of a region -/

section Inside

variable {bytes : Bytes} {offset len : Nat} (hlen : bytes.length < UInt64.size)

include hlen

theorem bytesAt_eq (h : offset + len ≤ bytes.length) (cursor : Nat) :
    bytesAt offset len bytes cursor = .ok (bytes.slice offset len) cursor :=
  bytesAt_eq_ok.2 ⟨Nat.lt_of_le_of_lt h hlen, h, rfl, rfl⟩

theorem bytes_eq (h : offset + len ≤ bytes.length) :
    Reader.bytes len bytes offset = .ok (bytes.slice offset len) (offset + len) :=
  bytes_eq_ok.2 ⟨Nat.lt_of_le_of_lt h hlen, h, rfl, rfl⟩

theorem word_eq [Word α] (h : offset + Word.width α ≤ bytes.length) :
    word α bytes offset =
      .ok (Word.ofBytes (bytes.slice offset (Word.width α))) (offset + Word.width α) :=
  word_eq_ok.2 ⟨Nat.lt_of_le_of_lt h hlen, h, rfl, rfl⟩

theorem seek_eq (h : offset ≤ bytes.length) (cursor : Nat) :
    seek offset bytes cursor = .ok () offset :=
  seek_eq_ok.2 ⟨Nat.lt_of_le_of_lt h hlen, h, rfl⟩

end Inside

theorem reads_bytes (data : Bytes) : Reads (bytes data.length) data data := by
  intro region cursor hlen hdata
  rw [bytes_eq hlen hdata.le, hdata.slice_eq]

theorem reads_word [Word α] (a : α) : Reads (word α) (Word.toBytes a) a := by
  intro region cursor hlen hdata
  have hle := hdata.le
  have hslice := hdata.slice_eq
  rw [Word.length_toBytes] at hle hslice
  rw [word_eq hlen hle, hslice, Word.ofBytes_toBytes, Word.length_toBytes]

theorem toNat_ofNat_lt {n : Nat} (h : n < UInt64.size) : (UInt64.ofNat n).toNat = n :=
  UInt64.toNat_ofNat_of_lt' h

/-- Text is read up to the zero byte behind it. -/
theorem reads_text {t : String} (h : Utf8.hasNul t = false) : Reads text (Utf8.stored t) t := by
  intro region cursor hlen hdata
  have hle := hdata.le
  obtain ⟨rest, hrest⟩ := hdata.drop_eq
  have hstored : (Utf8.stored t).length = (Utf8.encode t).length + 1 := by
    rw [Utf8.length_stored]
    rfl
  rw [hstored] at hle ⊢
  refine text_eq_ok.2 ⟨Utf8.encode t, rest, ?_, Utf8.hasNul_eq_false_iff.1 h,
    Utf8.decode?_encode t, by omega, by omega⟩
  rw [hrest, Utf8.stored, List.append_assoc]
  rfl

end Reader

/-! ## Reading what was written -/

variable {w : Window} {data : Bytes}

theorem Window.holds_append (hw : w.Writable) (data : Bytes) :
    (w.append data).bytes.Holds w.cursor data :=
  ⟨w.bytes.take w.cursor, w.bytes.drop (w.cursor + data.length), Bytes.splice_eq ..,
    List.length_take_of_le hw.cursor_le⟩

/-- What was appended is read from where it starts, which leaves the cursor behind it. -/
theorem Reads.reading_append {m : Reader α} {a : α} (hm : Reads m data a) (hw : w.Writable)
    (hsize : w.size < UInt64.size) (h : data.length ≤ w.remaining) :
    Writer.reading (do Reader.seek w.cursor; m) (w.append data) = .ok a (w.append data) := by
  have hlen := Window.length_append hw h
  have hword : (w.append data).bytes.length < UInt64.size := by
    rw [hlen]
    exact hsize
  have hle : w.cursor ≤ (w.append data).bytes.length := by
    rw [hlen]
    exact hw.cursor_le
  have hread := Reader.bind_eq_ok (f := fun _ => m).2 ⟨(), w.cursor,
    Reader.seek_eq hword hle (w.append data).cursor, hm _ _ hword (Window.holds_append hw data)⟩
  simp only [Writer.reading, hread]
  rfl

end HardwareMap
