import HardwareMap.Proofs.Attribute.Pure
import HardwareMap.Proofs.Export.Blocks
import HardwareMap.Proofs.Region.Reads

/-!
# Stored records are read back

Each reader of a record passes over exactly its stored form and answers with what was stored.
Numbers survive this if they are 64-bit numbers, which all offsets and counts in a region are.
-/

namespace HardwareMap

/-! ## Components -/

namespace Details

theorem reads_flag (flag : Bool) :
    Reads readFlag (Word.toBytes (if flag then 1 else 0 : UInt8)) flag := by
  refine Reads.position fun start => ?_
  refine (Reader.reads_word (if flag then 1 else 0 : UInt8)).bind_of_nil ?_
  cases flag with
  | false => exact Reads.pure false
  | true => exact Reads.pure true

theorem reads_read {d : Details} (h : NulFree d.texts) : Reads (read d.kind) d.stored d := by
  cases d with
  | generic => exact Reads.pure _
  | thread => exact Reads.pure _
  | core => exact Reads.pure _
  | node => exact Reads.pure _
  | topology => exact Reads.pure _
  | cache c =>
    have htype : Utf8.hasNul c.type = false := h _ List.mem_cons_self
    exact (Reader.reads_word c.level).bind ((Reader.reads_text htype).bind
      ((Reader.reads_word c.size).bind ((Reader.reads_word c.ways).bind
        ((Reader.reads_word c.lineSize).map _))))
  | subdivision type => exact (Reader.reads_word type).map _
  | numa size => exact (Reader.reads_word size).map _
  | storage size => exact (Reader.reads_word size).map _
  | chip c =>
    have hvendor : Utf8.hasNul c.vendor = false := h _ List.mem_cons_self
    have hmodel : Utf8.hasNul c.model = false := h _ (List.mem_cons_of_mem _ List.mem_cons_self)
    exact (Reader.reads_text hvendor).bind ((Reader.reads_text hmodel).bind
      ((Reader.reads_word c.type).map _))
  | memory size isVolatile =>
    exact (Reader.reads_word size).bind ((reads_flag isVolatile).map _)

end Details

/-- A record is read back without its attributes, which follow it. -/
theorem Component.reads_readRecord {c : Component} (h : NulFree c.texts) (table : ChildTable)
    (hoffset : table.offset < UInt64.size) (hcount : table.count < UInt64.size) :
    Reads readRecord (c.head ++ (table.stored ++ c.tail)) ({ c with attributes := ∅ }, table) := by
  have hname : Utf8.hasNul c.name = false := h _ List.mem_cons_self
  have hdetails : NulFree c.details.texts := fun t ht => h t (List.mem_cons_of_mem _ ht)
  refine Reads.position fun start => ?_
  simp only [head, ChildTable.stored, tail, List.append_assoc]
  refine (Reader.reads_word c.kind.tag).bind ?_
  rw [Kind.ofTag?_tag]
  refine (Reader.reads_word c.id).bind ((Reader.reads_word (UInt64.ofNat table.offset)).bind
    ((Reader.reads_word (UInt64.ofNat table.count)).bind ((Reader.reads_text hname).bind ?_)))
  rw [Reader.toNat_ofNat_lt hoffset, Reader.toNat_ofNat_lt hcount]
  exact (Details.reads_read hdetails).map fun details =>
    (({ id := c.id, name := c.name, details } : Component), table)

/-- A number is what its stored form says, if it is a 64-bit number. -/
theorem Writer.ofLittleEndian_countBytes {n : Nat} (h : n < UInt64.size) :
    Bytes.ofLittleEndian (countBytes n) = n := by
  rw [countBytes, Word.toBytes, Bytes.ofLittleEndian_littleEndian (Word.code_lt (UInt64.ofNat n))]
  exact Reader.toNat_ofNat_lt h

theorem ChildTable.wordsOf_storedOffsets {offsets : List Nat} (h : ∀ offset ∈ offsets, offset < UInt64.size)
    (rest : Bytes) : wordsOf offsets.length (storedOffsets offsets ++ rest) = offsets := by
  induction offsets with
  | nil => rfl
  | cons offset others ih =>
    have hword := Writer.ofLittleEndian_countBytes (h offset List.mem_cons_self)
    have hlen : (Writer.countBytes offset).length = wordSize := Writer.length_countBytes _
    rw [storedOffsets_cons, List.append_assoc, List.length_cons, wordsOf, List.take_left' hlen,
      List.drop_left' hlen, hword, ih fun other hother => h other (List.mem_cons_of_mem _ hother)]

/-- A table is read wherever the cursor is, which stays. -/
theorem ChildTable.offsets_eq {bytes : Bytes} (hlen : bytes.length < UInt64.size) {table offset : Nat}
    (children : List Nat) (hchildren : ∀ child ∈ children, child < UInt64.size)
    (h : bytes.Holds table (storedOffsets children)) (cursor : Nat) (hoffset : offset = table) :
    offsets { offset, count := children.length } bytes cursor = .ok children cursor := by
  subst hoffset
  have hle := h.le
  rw [length_storedOffsets] at hle
  have hsize : size? { offset, count := children.length } = some (children.length * wordSize) :=
    if_pos (by show children.length * wordSize < UInt64.size; omega)
  have hslice : bytes.slice offset (children.length * wordSize) = storedOffsets children := by
    rw [← length_storedOffsets, h.slice_eq]
  have hat : Reader.bytesAt offset (children.length * wordSize) bytes cursor =
      .ok (storedOffsets children) cursor := by
    rw [Reader.bytesAt_eq hlen hle, hslice]
  have hwords := wordsOf_storedOffsets hchildren []
  rw [List.append_nil] at hwords
  simp only [offsets, hsize]
  refine Reader.bind_eq_ok.2 ⟨_, _, hat, ?_⟩
  rw [hwords]
  rfl

/-! ## Attributes -/

namespace Registry

/-- The value of a payload, if one of the name's rules decodes it or there is no rule. -/
def unpack? (r : Registry) (name : String) (payload : Bytes) : Option Value :=
  match r.rules name with
  | [] => some (.bytes payload)
  | rules => rules.findSome? (·.decode payload)

theorem unpack_eq {r : Registry} {name : String} {payload : Bytes} {value : Value}
    (h : r.unpack? name payload = some value) (offset : Nat) :
    r.unpack name payload offset = .ok value := by
  unfold unpack? at h
  unfold unpack
  cases hrules : r.rules name with
  | nil =>
    simp only [hrules, Option.some.injEq] at h
    simp only [h]
  | cons rule rest =>
    simp only [hrules] at h
    simp only [h]

/-- The names of packed attributes with the values of their payloads. -/
def unpackAll (r : Registry) (packed : List (String × Bytes)) : List (String × Value) :=
  packed.filterMap fun record => (r.unpack? record.1 record.2).map (record.1, ·)

/-- Every payload among packed attributes has a value. -/
def Unpackable (r : Registry) (packed : List (String × Bytes)) : Prop :=
  ∀ record ∈ packed, (r.unpack? record.1 record.2).isSome

end Registry

namespace Attributes

theorem reads_readRecord {r : Registry} {name : String} {payload : Bytes} {value : Value}
    (hname : Utf8.hasNul name = false) (hvalue : r.unpack? name payload = some value)
    (a : Attributes) :
    Reads (readRecord r a) (storedRecord name payload) (a.insert name value) := by
  refine Reads.of_lt fun hlen => ?_
  have hpayload : payload.length < UInt64.size := by
    simp only [storedRecord, List.length_append] at hlen
    omega
  refine (Reader.reads_text hname).bind
    ((Reader.reads_word (UInt64.ofNat payload.length)).bind (Reads.position fun start => ?_))
  rw [Reader.toNat_ofNat_lt hpayload]
  refine (Reader.reads_bytes payload).bind_of_nil ?_
  rw [Registry.unpack_eq hvalue]
  exact Reads.pure _

theorem reads_iterate {r : Registry} {packed : List (String × Bytes)}
    (hnames : NulFree (packed.map (·.1))) (hvalues : r.Unpackable packed) (a : Attributes) :
    Reads (Reader.iterate (readRecord r) packed.length a) (storedRecords packed)
      (a.insertAll (r.unpackAll packed)) := by
  induction packed generalizing a with
  | nil => exact Reads.pure a
  | cons record rest ih =>
    obtain ⟨value, hvalue⟩ := Option.isSome_iff_exists.1 (hvalues record List.mem_cons_self)
    have hrest := ih (fun t ht => hnames t (List.mem_cons_of_mem _ ht))
      (fun other hother => hvalues other (List.mem_cons_of_mem _ hother)) (a.insert record.1 value)
    have hrecord := (reads_readRecord (hnames _ List.mem_cons_self) hvalue a).bind
      (f := fun a => Reader.iterate (readRecord r) rest.length a) hrest
    have hall : r.unpackAll (record :: rest) = (record.1, value) :: r.unpackAll rest :=
      List.filterMap_cons_some (by rw [hvalue]; rfl)
    rw [hall, storedRecords, List.flatMap_cons]
    exact hrecord

theorem length_le_storedRecords (packed : List (String × Bytes)) :
    packed.length ≤ (storedRecords packed).length := by
  induction packed with
  | nil => exact Nat.le_refl 0
  | cons record rest ih =>
    rw [storedRecords, List.flatMap_cons, List.length_append, ← storedRecords,
      length_storedRecord, Registry.recordSize, List.length_cons]
    omega

/-- A section is read back as the map of its names and the values of its payloads. -/
theorem reads_read {r : Registry} {packed : List (String × Bytes)}
    (hnames : NulFree (packed.map (·.1))) (hvalues : r.Unpackable packed) :
    Reads (read r) (storedSection packed) (.ofList (r.unpackAll packed)) := by
  refine Reads.of_lt fun hlen => ?_
  have hcount : packed.length < UInt64.size := by
    have hle := length_le_storedRecords packed
    rw [storedSection, List.length_append] at hlen
    omega
  refine (Reader.reads_word (UInt64.ofNat packed.length)).bind ?_
  rw [Reader.toNat_ofNat_lt hcount]
  exact reads_iterate hnames hvalues ∅

end Attributes

/-! ## Paths -/

theorem PathRecord.reads_read {p : PathRecord} (hsource : p.source < UInt64.size)
    (htarget : p.target < UInt64.size) : Reads read p.stored p := by
  refine (Reader.reads_word (UInt64.ofNat p.source)).bind
    ((Reader.reads_word (UInt64.ofNat p.target)).bind (Reads.position fun start =>
      (Reader.reads_word p.orientation.tag).bind ?_))
  rw [Orientation.ofTag?_tag, Reader.toNat_ofNat_lt hsource, Reader.toNat_ofNat_lt htarget]
  exact (Reader.reads_word p.type.code).bind ((Reader.reads_word p.bandwidth).bind
    ((Reader.reads_word p.latency).map _))

end HardwareMap
