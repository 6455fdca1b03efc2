import HardwareMap.Layout.ComponentRecord
import HardwareMap.Layout.PathRecord
import HardwareMap.Proofs.Region.Appends
import Mathlib.Algebra.GroupWithZero.Nat

/-!
# The stored forms of records

For each record there is the string of bytes that it is stored as, of the length that the estimate
counts for it, and its writer appends exactly that string.  Text with a zero byte in it is the one
thing that cannot be stored.  A component's record is stored around its reference to a child table,
which is still zero when the record is written.
-/

namespace HardwareMap

/-- No text in a list holds the zero byte that would end it. -/
def NulFree (texts : List String) : Prop := ∀ t ∈ texts, Utf8.hasNul t = false

instance (texts : List String) : Decidable (NulFree texts) :=
  inferInstanceAs (Decidable (∀ t ∈ texts, Utf8.hasNul t = false))

/-! ## Components -/

namespace Details

/-- The texts among the details. -/
def texts : Details → List String
  | .cache c => [c.type]
  | .chip c => [c.vendor, c.model]
  | _ => []

/-- The stored form of the details. -/
def stored : Details → Bytes
  | .cache c =>
    Word.toBytes c.level ++ (Utf8.stored c.type ++
      (Word.toBytes c.size ++ (Word.toBytes c.ways ++ Word.toBytes c.lineSize)))
  | .subdivision type => Word.toBytes type
  | .numa size | .storage size => Word.toBytes size
  | .chip c => Utf8.stored c.vendor ++ (Utf8.stored c.model ++ Word.toBytes c.type)
  | .memory size isVolatile =>
    Word.toBytes size ++ Word.toBytes (if isVolatile then 1 else 0 : UInt8)
  | .generic | .thread | .core | .node | .topology => []

theorem length_stored (d : Details) : d.stored.length = d.encodedSize := by
  cases d <;> simp only [stored, encodedSize, List.length_append, Word.length_toBytes,
    Utf8.length_stored, List.length_nil] <;> simp only [Word.width] <;> omega

theorem appends_write (d : Details) : Appends d.write (NulFree d.texts) d.stored fun _ => () := by
  have word {α : Type} [Word α] (a : α) :
      Appends (discard (Writer.word a)) True (Word.toBytes a) fun _ => () :=
    (Writer.appends_word a).discard
  have text (t : String) :
      Appends (discard (Writer.text t)) (Utf8.hasNul t = false) (Utf8.stored t) fun _ => () :=
    (Writer.appends_text t).discard
  have none : True ↔ NulFree [] := by simp [NulFree]
  cases d with
  | cache c =>
    exact ((word c.level).seq ((text c.type).seq ((word c.size).seq ((word c.ways).seq
      (word c.lineSize))))).congr (by simp [NulFree, texts]) rfl fun _ => rfl
  | chip c =>
    exact ((text c.vendor).seq ((text c.model).seq (word c.type))).congr
      (by simp [NulFree, texts]) rfl fun _ => rfl
  | memory size isVolatile =>
    exact ((word size).seq (word _)).congr (by simp [NulFree, texts]) rfl fun _ => rfl
  | subdivision type => exact (word type).congr none rfl fun _ => rfl
  | numa size => exact (word size).congr none rfl fun _ => rfl
  | storage size => exact (word size).congr none rfl fun _ => rfl
  | generic | thread | core | node | topology =>
    exact (AppendsFrom.pure ()).congr none rfl fun _ => rfl

end Details

/-- The stored form of a reference to a child table. -/
def ChildTable.stored (t : ChildTable) : Bytes :=
  Writer.countBytes t.offset ++ Writer.countBytes t.count

@[simp] theorem ChildTable.length_stored (t : ChildTable) : t.stored.length = encodedSize := by
  rw [stored, List.length_append, Writer.length_countBytes, Writer.length_countBytes]
  rfl

/-- Filling in a reference to a child table overwrites both of its words. -/
theorem ChildTable.patch_eq {w : Window} (hw : w.Writable) {offset : Nat} (table : ChildTable)
    (h : offset + encodedSize ≤ w.cursor) :
    patch offset table w = .ok () (w.overwrite offset table.stored) := by
  have hsecond : offset + wordSize + wordSize ≤ w.cursor := by
    unfold encodedSize at h
    omega
  have hfirst : offset + (Writer.countBytes table.offset).length ≤ w.cursor := by
    rw [Writer.length_countBytes]
    exact Nat.le_trans (Nat.le_add_right _ _) hsecond
  have hoffset := Writer.patch_eq hw (Writer.countBytes table.offset) hfirst
  have hcount := Writer.patch_eq (Window.writable_overwrite hw hfirst)
    (Writer.countBytes table.count) (by rw [Writer.length_countBytes]; exact hsecond)
  refine bind_eq_ok.2 ⟨(), _, hoffset, ?_⟩
  rw [Writer.patchCount, Writer.patchWord, hcount, Window.overwrite, Window.overwrite]
  have hinside : offset + (Writer.countBytes table.offset).length +
      (Writer.countBytes table.count).length ≤ w.bytes.length := by
    rw [Writer.length_countBytes, Writer.length_countBytes]
    exact Nat.le_trans hsecond hw.cursor_le
  have hsplice := Bytes.splice_append hinside
  rw [Writer.length_countBytes] at hsplice
  simp only [hsplice]
  rfl

namespace Component

/-- The texts that are stored with a component's record. -/
def texts (c : Component) : List String := c.name :: c.details.texts

/-- What a record holds before its reference to a child table. -/
def head (c : Component) : Bytes := Word.toBytes c.kind.tag ++ Word.toBytes c.id

/-- What a record holds behind its reference to a child table. -/
def tail (c : Component) : Bytes := Utf8.stored c.name ++ c.details.stored

@[simp] theorem length_head (c : Component) : c.head.length = wordSize + 4 := by
  simp only [head, List.length_append, Word.length_toBytes]
  rfl

theorem length_record (c : Component) {reference : Bytes}
    (h : reference.length = ChildTable.encodedSize) :
    (c.head ++ (reference ++ c.tail)).length = c.recordSize := by
  simp only [List.length_append, length_head, h, tail, Utf8.length_stored, Details.length_stored,
    recordSize]
  omega

theorem appends_writeRecord (c : Component) :
    Appends c.writeRecord (NulFree c.texts)
      (c.head ++ (Bytes.zeros ChildTable.encodedSize ++ c.tail))
      fun start => { start, tableSlot := start + (wordSize + 4) } := by
  have hid : Appends (discard (Writer.word c.id)) True (Word.toBytes c.id) fun _ => () :=
    (Writer.appends_word c.id).discard
  have hname : Appends (discard (Writer.text c.name)) _ (Utf8.stored c.name) fun _ => () :=
    (Writer.appends_text c.name).discard
  refine ((Writer.appends_word c.kind.tag).bind fun start => hid.seq
    ((Writer.appends_reserve ChildTable.encodedSize).bind fun slot => hname.seq
      (c.details.appends_write.seq (.pure (RecordPlace.mk start slot))))).congr ?_ ?_ ?_
  · simp [NulFree, texts]
  · simp only [head, tail, List.append_assoc, List.append_nil]
  · intro start
    simp only [Word.length_toBytes, Nat.add_assoc]
    rfl

end Component

/-! ## Attributes -/

namespace Attributes

/-- The stored form of an attribute. -/
def storedRecord (name : String) (payload : Bytes) : Bytes :=
  Utf8.stored name ++ (Writer.countBytes payload.length ++ payload)

/-- The stored form of attributes one after the other. -/
def storedRecords (packed : List (String × Bytes)) : Bytes :=
  packed.flatMap fun record => storedRecord record.1 record.2

/-- The stored form of a section of attributes. -/
def storedSection (packed : List (String × Bytes)) : Bytes :=
  Writer.countBytes packed.length ++ storedRecords packed

theorem length_storedRecord (name : String) (payload : Bytes) :
    (storedRecord name payload).length = Registry.recordSize name payload := by
  simp only [storedRecord, List.length_append, Utf8.length_stored, Writer.length_countBytes,
    Registry.recordSize, wordSize]
  omega

theorem length_storedSection (packed : List (String × Bytes)) :
    (storedSection packed).length =
      wordSize + (packed.map fun record => Registry.recordSize record.1 record.2).sum := by
  simp only [storedSection, storedRecords, List.length_append, Writer.length_countBytes,
    List.length_flatMap, length_storedRecord]

theorem appends_writeRecord (name : String) (payload : Bytes) :
    Appends (writeRecord name payload) (Utf8.hasNul name = false) (storedRecord name payload)
      fun _ => () :=
  ((Writer.appends_text name).discard.seq ((Writer.appends_count payload.length).discard.seq
    (Writer.appends_bytes payload).discard)).congr (by simp) rfl fun _ => rfl

theorem appends_writeRecords (packed : List (String × Bytes)) :
    Appends (writeRecords packed) (NulFree (packed.map (·.1))) (storedRecords packed)
      fun _ => () := by
  induction packed with
  | nil => exact (AppendsFrom.pure ()).congr (by simp [NulFree]) rfl fun _ => rfl
  | cons record rest ih =>
    refine ((appends_writeRecord record.1 record.2).seq ih).congr ?_ ?_ fun _ => rfl
    · simp [NulFree]
    · rw [storedRecords, storedRecords, List.flatMap_cons]

end Attributes

namespace Registry

/-- A name that holds a zero byte is never packed. -/
theorem hasNul_of_pack {r : Registry} {name : String} {value : Value} {calls : CallLog}
    {payload : Bytes} (h : (r.pack name value calls).1 = some payload) :
    Utf8.hasNul name = false := by
  unfold pack at h
  by_cases hnul : Utf8.hasNul name = true
  · rw [if_pos hnul] at h
    cases h
  · exact Bool.eq_false_iff.2 hnul

/-- What packing the first attribute adds to the packing of the others. -/
theorem packAll_cons (r : Registry) (name : String) (value : Value) (rest : List (String × Value))
    (calls : CallLog) :
    let first := r.pack name value calls
    let others := r.packAll rest first.2
    r.packAll ((name, value) :: rest) calls =
      (match first.1 with
        | some payload => { others.1 with packed := (name, payload) :: others.1.packed }
        | none => { others.1 with dropped := name :: others.1.dropped },
       others.2) := by
  simp only [packAll]
  cases (r.pack name value calls).1 <;> rfl

theorem nulFree_packAll (r : Registry) (entries : List (String × Value)) (calls : CallLog) :
    NulFree ((r.packAll entries calls).1.packed.map (·.1)) := by
  induction entries generalizing calls with
  | nil => simp [packAll, NulFree]
  | cons entry rest ih =>
    have hrest := ih (r.pack entry.1 entry.2 calls).2
    rw [packAll_cons]
    cases hpack : (r.pack entry.1 entry.2 calls).1 with
    | none => exact hrest
    | some payload =>
      intro t ht
      rcases List.mem_cons.1 ht with rfl | hmem
      · exact hasNul_of_pack hpack
      · exact hrest t hmem

end Registry

/-! ## Passes -/

namespace Packer

theorem settles_writing {α : Type} {m : Writer α} {w w' : Window} {valid : Prop} {len room : Nat}
    {a : α} (h : Settles valid len room (m w) a w') (calls : CallLog) :
    Settles valid len room (writing m ⟨w, calls⟩) a ⟨w', calls⟩ := by
  unfold writing
  refine ⟨fun hv hlen => ?_, fun hnot => ?_⟩
  · simp only [h.ok hv hlen]
  · obtain ⟨e, s', heq, hnul⟩ := h.error hnot
    simp only [heq]
    exact ⟨e, _, rfl, hnul⟩

theorem appends_writing {α : Type} {m : Writer α} {valid : Prop} {data : Bytes}
    {answer : Nat → α} (h : Appends m valid data answer) (calls : CallLog) :
    AppendsFrom (⟨·, calls⟩) (⟨·, calls⟩) (writing m) valid data answer :=
  fun w hw => settles_writing (h w hw) calls

end Packer

/-- A section of attributes is written as it was packed, whatever the answers of the encoders. -/
theorem Attributes.appends_write (a : Attributes) (r : Registry) (calls : CallLog) :
    let result := r.packAll a.entries calls
    AppendsFrom (⟨·, calls⟩) (⟨·, result.2⟩) (a.write r) True (storedSection result.1.packed)
      fun _ => result.1.dropped := by
  intro result w hw
  have hrecords : Appends (do
      discard (Writer.count result.1.packed.length)
      writeRecords result.1.packed) True (storedSection result.1.packed) fun _ => () :=
    ((Writer.appends_count _).discard.seq (appends_writeRecords _)).congr
      ⟨fun _ => trivial, fun _ => ⟨trivial, r.nulFree_packAll a.entries calls⟩⟩ rfl fun _ => rfl
  exact (Packer.settles_writing (hrecords w hw) result.2).map fun _ => result.1.dropped

/-! ## Paths -/

namespace PathRecord

/-- The stored form of a path's record. -/
def stored (p : PathRecord) : Bytes :=
  Writer.countBytes p.source ++ (Writer.countBytes p.target ++ (Word.toBytes p.orientation.tag ++
    (Word.toBytes p.type.code ++ (Word.toBytes p.bandwidth ++ Word.toBytes p.latency))))

@[simp] theorem length_stored (p : PathRecord) : p.stored.length = size := by
  simp only [stored, List.length_append, Word.length_toBytes]
  rfl

theorem appends_write (p : PathRecord) : Appends p.write True p.stored fun _ => () :=
  ((Writer.appends_count p.source).discard.seq ((Writer.appends_count p.target).discard.seq
    ((Writer.appends_word p.orientation.tag).discard.seq ((Writer.appends_word p.type.code).discard.seq
      ((Writer.appends_word p.bandwidth).discard.seq
        (Writer.appends_word p.latency).discard))))).congr (by simp) rfl fun _ => rfl

end PathRecord

end HardwareMap
