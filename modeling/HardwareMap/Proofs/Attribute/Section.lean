import HardwareMap.Proofs.Attribute.Restored
import HardwareMap.Proofs.Export.Format
import HardwareMap.Proofs.Layout.Extension

/-!
# Sections of attributes

The section of an owner's attributes is sized, written and read by three walks over different things:
the entries in any order, the entries in the order of their names, and the bytes.  With pure encoders
all three agree (`Attributes.write_section`): the section takes the bytes that it was sized to,
depends on the attributes only, and is read back as what its payloads decode to.
-/

namespace HardwareMap

section Pure

variable {r : Registry} (hpure : r.custom.Pure)

include hpure

/-- The order in which attributes are sized does not matter to the sum. -/
theorem Registry.recordSizes_perm {entries entries' : List (String × Value)}
    (h : entries.Perm entries') (calls calls' : CallLog) :
    (r.recordSizes entries calls).1 = (r.recordSizes entries' calls').1 := by
  rw [recordSizes_eq, recordSizes_eq, packAll_eq hpure, packAll_eq hpure, packed_eq hpure,
    packed_eq hpure]
  exact ((h.filterMap _).map _).sum_eq

theorem Attributes.sectionSize_packed (a : Attributes) (calls : CallLog) :
    (a.sectionSize r calls).1 = (storedSection (r.packed a.entries).packed).length := by
  rw [sectionSize_eq, Registry.packAll_eq hpure]

theorem Registry.length_packed (entries : List (String × Value)) :
    (r.packed entries).packed.length =
      entries.countP fun entry => (r.pack entry.1 entry.2 ∅).1.isSome := by
  rw [packed_eq hpure, List.length_filterMap_eq_countP]
  simp only [Option.isSome_map]

/-- What is packed of a map is unpackable if the payloads of its values are. -/
theorem Attributes.unpackable_of_get? {a : Attributes}
    (h : ∀ name value payload, a.get? name = some value →
      (r.pack name value ∅).1 = some payload → ∃ v offset, r.unpack name payload offset = .ok v) :
    r.Unpackable (r.packed a.entries).packed := by
  rw [Registry.packed_eq hpure]
  intro record hrecord
  obtain ⟨⟨name, value⟩, hmem, hpacked⟩ := List.mem_filterMap.1 hrecord
  obtain ⟨payload, hpack, rfl⟩ := Option.map_eq_some_iff.1 hpacked
  obtain ⟨v, offset, hv⟩ := h name value payload (SortedMap.mem_entries.1 hmem) hpack
  rw [Registry.unpack?_of_unpack hv]
  rfl

end Pure

namespace Attributes

/-- What a name has after its value was packed and unpacked. -/
theorem get?_restored {a : Attributes} {r : Registry} {name : String} {v : Value} :
    (a.restored r).get? name = some v ↔
      ∃ value payload, a.get? name = some value ∧ (r.pack name value ∅).1 = some payload ∧
        ∀ offset, r.unpack name payload offset = .ok v := by
  rw [restored, SortedMap.get?_ofList_filterMap]
  simp only [Registry.restore?, Option.bind_eq_some_iff]
  constructor
  · rintro ⟨value, hvalue, payload, hpack, hv⟩
    exact ⟨value, payload, hvalue, hpack, Registry.unpack_eq hv⟩
  · rintro ⟨value, payload, hvalue, hpack, hv⟩
    exact ⟨value, hvalue, payload, hpack, Registry.unpack?_of_unpack (hv 0)⟩

/-- A window holds the section of some attributes from an offset up to its cursor. -/
structure SectionAt (a : Attributes) (r : Registry) (start : Nat) (w : Window) : Prop where
  /-- The section takes the bytes that it is sized to. -/
  cursor_eq : ∀ calls, w.cursor = start + (a.sectionSize r calls).1
  /-- It begins with the number of attributes that have a payload. -/
  count_eq : Bytes.ofLittleEndian (w.bytes.slice start wordSize) =
    a.entries.countP fun entry => (r.pack entry.1 entry.2 ∅).1.isSome
  /-- If all payloads decode, it is read back as what they decode to. -/
  read_eq : (∀ name value payload, a.get? name = some value →
      (r.pack name value ∅).1 = some payload → ∃ v offset, r.unpack name payload offset = .ok v) →
    ∃ found : Attributes, Writer.reading (do Reader.seek start; read r) w = .ok found w ∧
      ∀ name v, found.get? name = some v ↔
        ∃ value payload, a.get? name = some value ∧ (r.pack name value ∅).1 = some payload ∧
          ∀ offset, r.unpack name payload offset = .ok v
  /-- The attributes may be listed in any order, to be sized and to be written. -/
  listed_eq : ∀ listed : List (String × Value), listed.Perm a.entries →
    (∀ calls, w.cursor = start + (wordSize + (r.recordSizes listed calls).1)) ∧
      w.bytes.slice start (w.cursor - start) = Format.attributeSection r listed

variable {a : Attributes} {r : Registry}

/-- The stored form of what is packed is a section that was appended. -/
theorem sectionAt_append (hpure : r.custom.Pure) {w : Window} (hw : w.Writable)
    (hsize : w.size < UInt64.size)
    (hroom : (storedSection (r.packed a.entries).packed).length ≤ w.remaining) :
    a.SectionAt r w.cursor (w.append (storedSection (r.packed a.entries).packed)) where
  cursor_eq calls := by rw [sectionSize_packed hpure, Window.cursor_append]
  count_eq := by
    have hword := (Window.holds_append hw (storedSection (r.packed a.entries).packed)).left.slice_eq
    have hcount : (r.packed a.entries).packed.length < UInt64.size := by
      have hle := length_le_storedRecords (r.packed a.entries).packed
      have hremaining : w.remaining ≤ w.size := Nat.sub_le ..
      rw [storedSection, List.length_append] at hroom
      omega
    rw [Writer.length_countBytes] at hword
    rw [hword, Writer.ofLittleEndian_countBytes hcount, Registry.length_packed hpure]
  read_eq hdecodes := by
    have hnames : NulFree ((r.packed a.entries).packed.map (·.1)) :=
      r.nulFree_packAll a.entries ∅
    have hvalues : r.unpackAll (r.packed a.entries).packed = _ :=
      Registry.unpackAll_packAll hpure a.entries ∅
    have hread := reads_read hnames (unpackable_of_get? hpure hdecodes)
    rw [hvalues] at hread
    exact ⟨a.restored r, hread.reading_append hw hsize hroom, fun name v => get?_restored⟩
  listed_eq listed hlisted := by
    refine ⟨fun calls => ?_, ?_⟩
    · rw [Registry.recordSizes_perm hpure hlisted calls ∅, Window.cursor_append,
        ← sectionSize_packed hpure a ∅]
      rfl
    · rw [Window.cursor_append, Nat.add_sub_cancel_left, (Window.holds_append hw _).slice_eq,
        Format.attributeSection_eq hpure hlisted]

/-- Where there is room, attributes are written as a section at the cursor, and the names of those
without a payload are answered. -/
theorem write_section (hpure : r.custom.Pure) (a : Attributes) {w : Window} (hw : w.Writable)
    (hsize : w.size < UInt64.size) (sized calls : CallLog)
    (hroom : (a.sectionSize r sized).1 ≤ w.remaining) :
    ∃ w' calls', a.write r ⟨w, calls⟩ =
        .ok ((a.entries.filter fun entry => (r.pack entry.1 entry.2 ∅).1.isNone).map (·.1))
          ⟨w', calls'⟩ ∧
      a.SectionAt r w.cursor w' := by
  rw [sectionSize_packed hpure] at hroom
  have hwrite := (a.appends_write r calls w hw).ok trivial
    (by rw [Registry.packAll_eq hpure]; exact hroom)
  rw [Registry.packAll_eq hpure] at hwrite
  have hdropped := congrArg PackedAttributes.dropped (Registry.packed_eq hpure a.entries)
  exact ⟨_, _, hdropped ▸ hwrite, sectionAt_append hpure hw hsize hroom⟩

/-- A number that the catalog knows is written and read back, a value that only its owner understands
is left out. -/
theorem write_section_foreign :
    let a : Attributes := .ofList [("CATcos", .u64 3), ("handle", .foreign (.made 0) (.int64 5))]
    let w : Window := { access := .write, bytes := Bytes.zeros 40, cursor := 4 }
    ∃ w' calls', a.write {} ⟨w, ∅⟩ = .ok ["handle"] ⟨w', calls'⟩ ∧ w'.cursor = 35 ∧
      ∃ found : Attributes, Writer.reading (do Reader.seek 4; read {}) w' = .ok found w' ∧
        found.get? "CATcos" = some (.u64 3) ∧ found.get? "handle" = none := by
  intro a w
  have hsized : (a.sectionSize {} ∅).1 = 31 := by decide +kernel
  obtain ⟨w', calls', hwrite, hsection⟩ := write_section Table.pure_empty a (w := w)
    ⟨rfl, by decide⟩ (by decide) ∅ ∅ (by rw [hsized]; decide)
  obtain ⟨found, hread, hfound⟩ := hsection.read_eq fun name value payload _ hpack => by
    have hback := Registry.restores_catalog name value payload hpack
    rw [Registry.restore?, hpack, Option.bind_some] at hback
    exact ⟨value, 0, Registry.unpack_eq hback 0⟩
  refine ⟨w', calls', hwrite, by rw [hsection.cursor_eq ∅, hsized], found, hread, ?_, ?_⟩
  · exact (hfound "CATcos" (.u64 3)).2 ⟨.u64 3, [3, 0, 0, 0, 0, 0, 0, 0], rfl, rfl, fun _ => rfl⟩
  · refine Option.eq_none_iff_forall_ne_some.2 fun v hv => ?_
    obtain ⟨value, payload, hvalue, hpack, -⟩ := (hfound "handle" v).1 hv
    obtain rfl : Value.foreign (.made 0) (.int64 5) = value := Option.some.inj hvalue
    cases hpack

end Attributes

end HardwareMap
