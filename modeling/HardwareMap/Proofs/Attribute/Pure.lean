import HardwareMap.Layout.AttributeSection
import HardwareMap.Proofs.Layout.Stored

/-!
# Encoders that answer by the value alone

If every encoder of a caller's table is pure then what an attribute is packed to is settled before
any call is made (`Registry.packed`), and the passes of an export agree on it.  The size of a section
needs no such condition: it is the length of what is packed by the very same calls
(`Attributes.sectionSize_eq`).
-/

namespace HardwareMap

/-- A rule whose encoder takes no notice of earlier calls. -/
def Rule.Pure (rule : Rule) : Prop :=
  ∀ calls value, rule.encode calls value = rule.encode 0 value

/-- A table whose rules are all pure. -/
def Table.Pure (t : Table) : Prop := ∀ name rule, t.get? name = some rule → rule.Pure

theorem Table.pure_empty : Table.Pure ∅ := fun _ _ h => by cases h

theorem Table.pure_insert {t : Table} (ht : t.Pure) (name : String) {rule : Rule} (h : rule.Pure) :
    Table.Pure (t.insert name rule) := by
  intro other found hfound
  rw [SortedMap.get?_insert] at hfound
  split at hfound
  · obtain rfl := Option.some.inj hfound
    exact h
  · exact ht other found hfound

namespace Registry

/-- What attributes are packed to before any call was made on an encoder. -/
def packed (r : Registry) (entries : List (String × Value)) : PackedAttributes :=
  (r.packAll entries ∅).1

theorem pack_eq {r : Registry} (h : r.custom.Pure) (name : String) (value : Value)
    (calls calls' : CallLog) : (r.pack name value calls).1 = (r.pack name value calls').1 := by
  unfold pack
  by_cases hnul : Utf8.hasNul name = true
  · rw [if_pos hnul, if_pos hnul]
  · rw [if_neg hnul, if_neg hnul]
    cases (Catalog.table.get? name).bind (·.encode 0 value) with
    | some payload => rfl
    | none =>
      cases hrule : r.custom.get? name with
      | none => rfl
      | some rule =>
        simp only
        rw [h name rule hrule ((calls.get? name).getD 0) value,
          h name rule hrule ((calls'.get? name).getD 0) value]

theorem packAll_eq {r : Registry} (h : r.custom.Pure) (entries : List (String × Value))
    (calls : CallLog) : (r.packAll entries calls).1 = r.packed entries := by
  have go : ∀ calls', (r.packAll entries calls).1 = (r.packAll entries calls').1 := by
    induction entries generalizing calls with
    | nil => exact fun _ => rfl
    | cons entry rest ih =>
      intro calls'
      rw [packAll_cons, packAll_cons]
      simp only
      rw [pack_eq h entry.1 entry.2 calls calls',
        ih (r.pack entry.1 entry.2 calls).2 (r.pack entry.1 entry.2 calls').2]
  exact go ∅

/-- With pure encoders what an attribute is packed to does not depend on those before it. -/
theorem packed_eq {r : Registry} (h : r.custom.Pure) (entries : List (String × Value)) :
    r.packed entries =
      { packed := entries.filterMap fun a => (r.pack a.1 a.2 ∅).1.map (a.1, ·)
        dropped := (entries.filter fun a => (r.pack a.1 a.2 ∅).1.isNone).map (·.1) } := by
  induction entries with
  | nil => rfl
  | cons entry rest ih =>
    have hrest : (r.packAll rest (r.pack entry.1 entry.2 ∅).2).1 = r.packed rest :=
      packAll_eq h rest _
    rw [packed, packAll_cons, hrest, ih]
    cases hpack : (r.pack entry.1 entry.2 ∅).1 with
    | none =>
      rw [List.filterMap_cons_none (by rw [hpack]; rfl),
        List.filter_cons_of_pos (by rw [hpack]; rfl), List.map_cons]
    | some payload =>
      rw [List.filterMap_cons_some (by rw [hpack]; rfl),
        List.filter_cons_of_neg (by rw [hpack]; simp)]

/-- Sizing and packing make the same calls and count the same bytes. -/
theorem recordSizes_eq (r : Registry) (entries : List (String × Value)) (calls : CallLog) :
    r.recordSizes entries calls =
      (((r.packAll entries calls).1.packed.map fun record => recordSize record.1 record.2).sum,
        (r.packAll entries calls).2) := by
  induction entries generalizing calls with
  | nil => rfl
  | cons entry rest ih =>
    rw [packAll_cons]
    simp only [recordSizes, recordSize?, ih]
    cases (r.pack entry.1 entry.2 calls).1 with
    | none => simp
    | some payload => simp

end Registry

theorem Attributes.sectionSize_eq (a : Attributes) (r : Registry) (calls : CallLog) :
    a.sectionSize r calls =
      ((storedSection (r.packAll a.entries calls).1.packed).length,
        (r.packAll a.entries calls).2) := by
  rw [length_storedSection, sectionSize, Registry.recordSizes_eq]

end HardwareMap
