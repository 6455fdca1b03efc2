import HardwareMap.Proofs.Attribute.Pure
import HardwareMap.Proofs.Attribute.Rules
import HardwareMap.Proofs.Layout.Extension

/-!
# Rules of a caller add to the catalog

The catalog is consulted first.  So whatever the catalog alone packs is packed to the same bytes
whatever the rules of a caller, none of which is even asked (`Registry.pack_of_catalog`), and whatever
it decodes is decoded to the same value (`Registry.unpack_of_catalog`).
-/

namespace HardwareMap

namespace Registry

variable {name : String} {value : Value} {payload : Bytes}

/-- What the catalog alone packs is packed to the same bytes, and no rule of a caller is asked. -/
theorem pack_of_catalog {calls : CallLog} (h : (pack {} name value calls).1 = some payload)
    (r : Registry) (calls' : CallLog) : r.pack name value calls' = (some payload, calls') := by
  obtain ⟨hname, rule, hrule, hencode⟩ := exists_rule_of_catalog h
  rw [pack, if_neg (by rw [hname]; simp), hrule, Option.bind_some, hencode]

/-- What the catalog alone unpacks, under a name of its own, is unpacked to the same value. -/
theorem unpack_of_catalog {offset : Nat} (hname : (Catalog.table.get? name).isSome)
    (h : unpack {} name payload offset = .ok value) (r : Registry) :
    r.unpack name payload offset = .ok value := by
  obtain ⟨rule, hrule⟩ := Option.isSome_iff_exists.1 hname
  have hrules : rules {} name = [rule] := by
    rw [rules, hrule]
    rfl
  have hvalue := unpack?_of_unpack h
  rw [unpack?, hrules] at hvalue
  obtain ⟨found, hfound, hdecode⟩ := List.exists_of_findSome?_eq_some hvalue
  rw [List.mem_singleton.1 hfound] at hdecode
  exact unpack_eq (unpack?_of_catalog hrule hdecode r) offset

end Registry

/-- The catalog accepts all attributes. -/
def Attributes.Catalogued (a : Attributes) : Prop :=
  ∀ entry ∈ a.entries, (Registry.pack {} entry.1 entry.2 ∅).1.isSome

namespace Registry

/-- What the catalog accepts is packed without the rules of a caller. -/
theorem packAll_of_catalog (r : Registry) {entries : List (String × Value)}
    (h : ∀ entry ∈ entries, (pack {} entry.1 entry.2 ∅).1.isSome) (calls : CallLog) :
    r.packAll entries calls = (packed {} entries, calls) := by
  induction entries with
  | nil => rfl
  | cons entry rest ih =>
    obtain ⟨payload, hpayload⟩ := Option.isSome_iff_exists.1 (h entry List.mem_cons_self)
    have hpack := pack_of_catalog hpayload
    have hrest := ih fun other hother => h other (List.mem_cons_of_mem _ hother)
    have hcatalog : packed {} rest = (packAll {} rest ∅).1 := rfl
    rw [packed, packAll_cons, packAll_cons, hpack r calls, hpack {} ∅, hrest, hcatalog]

section Packed

variable (r : Registry) (entries : List (String × Value))

/-- What the catalog packed has the same value whatever the rules of a caller. -/
theorem unpack?_of_packed {record : String × Bytes}
    (hrecord : record ∈ (packed {} entries).packed) :
    ∃ value, ∀ r : Registry, r.unpack? record.1 record.2 = some value := by
  rw [packed_eq Table.pure_empty, List.mem_filterMap] at hrecord
  obtain ⟨⟨name, value⟩, -, hpacked⟩ := hrecord
  obtain ⟨payload, hpayload, rfl⟩ := Option.map_eq_some_iff.1 hpacked
  obtain ⟨-, rule, hrule, hencode⟩ := exists_rule_of_catalog hpayload
  exact ⟨value, unpack?_of_catalog hrule (Catalog.faithful hrule 0 value payload hencode)⟩

theorem unpackable_packed : r.Unpackable (packed {} entries).packed := by
  intro record hrecord
  obtain ⟨value, hvalue⟩ := unpack?_of_packed entries hrecord
  rw [hvalue r]
  rfl

theorem unpackAll_packed :
    r.unpackAll (packed {} entries).packed = unpackAll {} (packed {} entries).packed := by
  refine List.filterMap_congr fun record hrecord => ?_
  obtain ⟨value, hvalue⟩ := unpack?_of_packed entries hrecord
  rw [hvalue r, hvalue {}]

end Packed

/-- Sizing with the rules of a caller counts at least what the catalog alone counts. -/
theorem recordSizes_le (r : Registry) (entries : List (String × Value)) (calls calls' : CallLog) :
    (recordSizes {} entries calls).1 ≤ (r.recordSizes entries calls').1 := by
  induction entries generalizing calls calls' with
  | nil => exact Nat.le_refl 0
  | cons entry rest ih =>
    simp only [recordSizes, recordSize?]
    refine Nat.add_le_add ?_ (ih _ _)
    cases hpack : (pack {} entry.1 entry.2 calls).1 with
    | none => exact Nat.zero_le _
    | some payload =>
      have hsame := pack_of_catalog hpack r calls'
      exact Nat.le_of_eq (by rw [hsame])

end Registry

end HardwareMap
