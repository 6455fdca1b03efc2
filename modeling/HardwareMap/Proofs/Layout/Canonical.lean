import HardwareMap.Proofs.Layout.Reading
import HardwareMap.Proofs.Region.Accepts

/-!
# Records have one stored form

The writer of a record and its reader are written separately.  `Codec.Canonical` says that they are
two sides of one form: what is written is read back, and what is read is written back, byte for byte.
The second half holds because the readers refuse everything that no writer stores, such as a flag
that is neither zero nor one.

The records of components and of paths are canonical (`records_canonical`), a component together with
the reference to its child table.
-/

namespace HardwareMap

open Reader (accepts_word accepts_text)

variable {α : Type}

/-! ## Canonical records -/

/-- A kind of record. -/
structure Codec (α : Type) where
  /-- Which records can be stored. -/
  Valid : α → Prop
  /-- Bytes of a record. -/
  size : α → Nat
  write : α → Writer Unit
  read : Reader α
  /-- What of it a record holds; the rest is stored elsewhere. -/
  kept : α → α := id

/-- Writing and reading are inverse to each other, in both directions. -/
structure Codec.Canonical (k : Codec α) : Prop where
  /-- A record that is written where there is room takes its size, and is read back from there. -/
  read_write : ∀ (a : α) (w : Window), k.Valid a → w.Writable → w.size < UInt64.size →
    k.size a ≤ w.remaining → ∃ w', k.write a w = .ok () w' ∧ w'.cursor = w.cursor + k.size a ∧
      Writer.reading (do Reader.seek w.cursor; k.read) w' = .ok (k.kept a) w'
  /-- A record that is read is valid and takes the bytes that are passed over, and these are what is
  written for it anywhere. -/
  write_read : ∀ (bytes : Bytes) (start : Nat) (a : α) (stop : Nat),
    k.read bytes start = .ok a stop → k.Valid a ∧ k.kept a = a ∧ stop = start + k.size a ∧
      stop ≤ bytes.length ∧ ∀ w : Window, w.Writable → k.size a ≤ w.remaining →
        k.write a w = .ok () (w.append (bytes.slice start (k.size a)))

/-- A record is canonical if its writer and its reader agree on a form for it. -/
theorem Codec.Canonical.of_form {k : Codec α} (form : α → Bytes)
    (hsize : ∀ a, (form a).length = k.size a) (hpos : ∀ a, 0 < k.size a)
    (hwrite : ∀ a, k.Valid a → Appends (k.write a) True (form a) fun _ => ())
    (hread : ∀ a, k.Valid a → Reads k.read (form a) (k.kept a))
    (haccepts : Accepts k.read fun a x => k.Valid a ∧ k.kept a = a ∧ x = form a) :
    k.Canonical where
  read_write a w hvalid hw hword hroom := by
    rw [← hsize] at hroom ⊢
    exact ⟨w.append (form a), (hwrite a hvalid w hw).ok trivial hroom, rfl,
      (hread a hvalid).reading_append hw hword hroom⟩
  write_read bytes start a stop hok := by
    obtain ⟨x, rest, hdrop, rfl, hvalid, hkept, rfl⟩ := haccepts bytes start a stop hok
    have hinside := congrArg List.length hdrop
    rw [List.length_drop, List.length_append, hsize] at hinside
    have hconsumed : bytes.slice start (k.size a) = form a := by
      rw [Bytes.slice, hdrop, ← hsize, List.take_left]
    have hpos := hpos a
    refine ⟨hvalid, hkept, by rw [hsize], by rw [hsize]; omega, fun w hw hroom => ?_⟩
    rw [hconsumed]
    exact (hwrite a hvalid w hw).ok trivial (by rw [hsize]; exact hroom)

/-! ## Components -/

namespace Details

/-- A byte other than zero and one is no flag. -/
theorem accepts_readFlag :
    Accepts readFlag fun flag x => x = Word.toBytes (if flag then 1 else 0 : UInt8) := by
  refine .position fun start => accepts_word.bind fun value x hx => ?_
  subst hx
  split
  · exact .pure (List.append_nil _)
  · exact .pure (List.append_nil _)
  · exact .fail _ _

theorem accepts_read (kind : Kind) :
    Accepts (read kind) fun d x => d.kind = kind ∧ NulFree d.texts ∧ x = d.stored := by
  cases kind with
  | generic | thread | core | node | topology => exact .pure ⟨rfl, by simp [NulFree, texts], rfl⟩
  | cache =>
    refine accepts_word.bind fun level _ hlevel => accepts_text.bind fun type _ htype =>
      accepts_word.bind fun size _ hsize => accepts_word.bind fun ways _ hways =>
        accepts_word.bind fun lineSize _ hline => .pure ⟨rfl, ?_, ?_⟩
    · simp [NulFree, texts, htype.1]
    · rw [hlevel, htype.2, hsize, hways, hline, List.append_nil]
      rfl
  | subdivision =>
    exact accepts_word.bind fun type _ htype =>
      .pure ⟨rfl, by simp [NulFree, texts], by rw [htype, List.append_nil]; rfl⟩
  | numa =>
    exact accepts_word.bind fun size _ hsize =>
      .pure ⟨rfl, by simp [NulFree, texts], by rw [hsize, List.append_nil]; rfl⟩
  | storage =>
    exact accepts_word.bind fun size _ hsize =>
      .pure ⟨rfl, by simp [NulFree, texts], by rw [hsize, List.append_nil]; rfl⟩
  | chip =>
    refine accepts_text.bind fun vendor _ hvendor => accepts_text.bind fun model _ hmodel =>
      accepts_word.bind fun type _ htype => .pure ⟨rfl, ?_, ?_⟩
    · simp [NulFree, texts, hvendor.1, hmodel.1]
    · rw [hvendor.2, hmodel.2, htype, List.append_nil]
      rfl
  | memory =>
    refine accepts_word.bind fun size _ hsize => accepts_readFlag.bind fun isVolatile _ hflag =>
      .pure ⟨rfl, by simp [NulFree, texts], ?_⟩
    rw [hsize, hflag, List.append_nil]
    rfl

end Details

namespace Component

/-- Writes a record and fills in its reference to a child table. -/
def writeLinked (c : Component) (table : ChildTable) : Writer Unit := do
  let place ← c.writeRecord
  table.patch place.tableSlot

/-- The reference is filled in before the cursor, where the record left room for it. -/
theorem appends_writeLinked (c : Component) (table : ChildTable) :
    Appends (c.writeLinked table) (NulFree c.texts) (c.head ++ (table.stored ++ c.tail))
      fun _ => () := by
  intro w hw
  have hlen := table.length_stored.trans (Bytes.length_zeros ChildTable.encodedSize).symm
  have hempty := Bytes.length_zeros ChildTable.encodedSize
  refine ((c.appends_writeRecord w hw).bind_of_ok fun hroom => ?_).congr Iff.rfl ?_ rfl rfl
  · have hslot : w.cursor + (wordSize + 4) + ChildTable.encodedSize ≤
        (w.append (c.head ++ (Bytes.zeros ChildTable.encodedSize ++ c.tail))).cursor := by
      simp only [Window.cursor_append, List.length_append, length_head, hempty]
      omega
    rw [ChildTable.patch_eq (Window.writable_append hw hroom) table hslot, ← length_head c,
      Window.overwrite_append hw hlen hroom]
  · rw [c.length_record hempty, c.length_record table.length_stored]

theorem accepts_readRecord :
    Accepts readRecord fun record x => NulFree record.1.texts ∧
      record.2.offset < UInt64.size ∧ record.2.count < UInt64.size ∧
      record.1.attributes = ∅ ∧ x = record.1.head ++ (record.2.stored ++ record.1.tail) := by
  refine .position fun start => accepts_word.bind fun tag _ htag => ?_
  cases hkind : Kind.ofTag? tag with
  | none => exact .fail _ _
  | some kind =>
    refine accepts_word.bind fun id _ hid => accepts_word.bind fun offset _ hoffset =>
      accepts_word.bind fun count _ hcount => accepts_text.bind fun name _ hname =>
        (Details.accepts_read kind).bind fun details _ hdetails =>
          .pure ⟨?_, offset.toNat_lt, count.toNat_lt, rfl, ?_⟩
    · obtain ⟨-, hfree, -⟩ := hdetails
      simpa [NulFree, texts, hname.1] using hfree
    · obtain ⟨rfl, -, rfl⟩ := hdetails
      rw [htag, hid, hoffset, hcount, hname.2, ← Kind.tag_of_ofTag? hkind, List.append_nil]
      simp only [head, tail, ChildTable.stored, Writer.countBytes, UInt64.ofNat_toNat, kind,
        List.append_assoc]

/-- The records of components, each with its reference to a child table.  Attributes have a section
of their own. -/
def codec : Codec (Component × ChildTable) where
  Valid := fun (c, table) =>
    NulFree c.texts ∧ table.offset < UInt64.size ∧ table.count < UInt64.size
  size := fun (c, _) => c.recordSize
  write := fun (c, table) => c.writeLinked table
  read := readRecord
  kept := fun (c, table) => ({ c with attributes := ∅ }, table)

theorem canonical_codec : codec.Canonical :=
  .of_form (fun (c, table) => c.head ++ (table.stored ++ c.tail))
    (fun (c, table) => c.length_record table.length_stored)
    (fun (c, _) => by simp only [codec, recordSize, wordSize]; omega)
    (fun (c, table) h => (c.appends_writeLinked table).congr (iff_of_true h.1 trivial) rfl
      fun _ => rfl)
    (fun (_, table) h => reads_readRecord h.1 table h.2.1 h.2.2)
    (accepts_readRecord.mono fun (c, _) _ ⟨hfree, hoffset, hcount, hattributes, hform⟩ =>
      ⟨⟨hfree, hoffset, hcount⟩, by rw [codec, ← hattributes], hform⟩)

end Component

/-! ## Paths -/

namespace PathRecord

theorem accepts_read :
    Accepts read fun p x => p.source < UInt64.size ∧ p.target < UInt64.size ∧ x = p.stored := by
  refine accepts_word.bind fun source _ hsource => accepts_word.bind fun target _ htarget =>
    .position fun start => accepts_word.bind fun tag _ htag => ?_
  cases horientation : Orientation.ofTag? tag with
  | none => exact .fail _ _
  | some orientation =>
    refine accepts_word.bind fun type _ htype => accepts_word.bind fun bandwidth _ hbandwidth =>
      accepts_word.bind fun latency _ hlatency => .pure ⟨source.toNat_lt, target.toNat_lt, ?_⟩
    rw [hsource, htarget, htag, htype, hbandwidth, hlatency, List.append_nil,
      ← Orientation.tag_of_ofTag? horientation]
    simp only [stored, Writer.countBytes, UInt64.ofNat_toNat]

def codec : Codec PathRecord where
  Valid p := p.source < UInt64.size ∧ p.target < UInt64.size
  size _ := size
  write := write
  read := read

theorem canonical_codec : codec.Canonical :=
  .of_form stored length_stored (fun _ => show 0 < PathRecord.size by decide)
    (fun p _ => p.appends_write) (fun _ h => reads_read h.1 h.2)
    (accepts_read.mono fun _ _ ⟨hsource, htarget, hform⟩ => ⟨⟨hsource, htarget⟩, rfl, hform⟩)

end PathRecord

/-- The records of components and of paths are written as they are read, and read as they are
written. -/
theorem records_canonical : Component.codec.Canonical ∧ PathRecord.codec.Canonical :=
  ⟨Component.canonical_codec, PathRecord.canonical_codec⟩

/-- A record of a memory component that is written and read back, and one of a path that is read and
written back. -/
theorem records_canonical_memory :
    let memory : Component := { id := 2, name := "memory", details := .memory 100 false }
    let table : ChildTable := { offset := 512, count := 3 }
    let w : Window := { access := .write, bytes := Bytes.zeros 64, cursor := 8 }
    let data : Bytes := Bytes.zeros 16 ++ 8 :: Bytes.zeros 23
    let path : PathRecord := ⟨0, 0, .bidirectional, ⟨0⟩, ⟨0⟩, ⟨0⟩⟩
    (∃ w', memory.writeLinked table w = .ok () w' ∧ w'.cursor = 52 ∧
      Writer.reading (do Reader.seek 8; Component.readRecord) w' = .ok (memory, table) w') ∧
    PathRecord.read data 0 = .ok path PathRecord.size ∧
      path.write w = .ok () (w.append data) := by
  intro memory table w data path
  have hw : w.Writable := ⟨rfl, by decide⟩
  have hread : PathRecord.read data 0 = .ok path PathRecord.size := by rfl
  have hfree : NulFree memory.texts := by decide +kernel
  obtain ⟨-, -, -, -, hwrite⟩ := records_canonical.2.write_read data 0 path _ hread
  exact ⟨records_canonical.1.read_write (memory, table) w ⟨hfree, by decide, by decide⟩ hw
    (by decide) (by decide), hread, hwrite w hw (by decide)⟩

end HardwareMap
