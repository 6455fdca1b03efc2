import HardwareMap.Proofs.Attribute.Rules

/-!
# Attributes that come back

Where every payload decodes to the value that it was encoded from, as it does with the rules of the
catalog alone, the attributes that come back are those that have a rule, unchanged
(`Attributes.entries_restored`).  Packed again they give the same payloads, and none is left out
(`Registry.packed_restored`).
-/

namespace HardwareMap

namespace SortedMap

variable {κ β : Type} [Ord κ]

theorem setEntry_of_forall_lt [Std.OrientedOrd κ] {key : κ} (value : β) {entries : List (κ × β)}
    (h : ∀ entry ∈ entries, compare entry.1 key = .lt) :
    setEntry key value entries = entries ++ [(key, value)] := by
  induction entries with
  | nil => rfl
  | cons first rest ih =>
    have hgt : compare key first.1 = .gt := Std.OrientedCmp.gt_iff_lt.2 (h first List.mem_cons_self)
    rw [setEntry, hgt, ih fun entry hentry => h entry (List.mem_cons_of_mem _ hentry),
      List.cons_append]

variable [Std.TransOrd κ] [Std.LawfulEqOrd κ]

/-- The map of a list that is in order already has this list as its entries. -/
theorem entries_ofList {pairs : List (κ × β)}
    (h : pairs.Pairwise fun a b => compare a.1 b.1 = .lt) : (ofList pairs).entries = pairs := by
  have go : ∀ (rest : List (κ × β)) (m : SortedMap κ β),
      (m.entries ++ rest).Pairwise (fun a b => compare a.1 b.1 = .lt) →
        (m.insertAll rest).entries = m.entries ++ rest := by
    intro rest
    induction rest with
    | nil => exact fun m _ => (List.append_nil _).symm
    | cons pair rest ih =>
      intro m hm
      have hlast : (m.insert pair.1 pair.2).entries = m.entries ++ [pair] :=
        setEntry_of_forall_lt pair.2 fun entry hentry =>
          (List.pairwise_append.1 hm).2.2 entry hentry pair List.mem_cons_self
      rw [insertAll, List.foldl_cons, ← insertAll, ih, hlast, List.append_assoc]
      · rfl
      · rw [hlast, List.append_assoc]
        exact hm
  exact go pairs empty h

/-- Changing or leaving out every entry of a map by itself changes or leaves out what is found. -/
theorem get?_ofList_filterMap {γ : Type} (m : SortedMap κ β)
    (f : κ → β → Option γ) (key : κ) :
    (ofList (m.entries.filterMap fun entry => (f entry.1 entry.2).map (entry.1, ·))).get? key =
      (m.get? key).bind (f key) := by
  have hascending : (m.entries.filterMap fun entry =>
      (f entry.1 entry.2).map (entry.1, ·)).Pairwise fun a b => compare a.1 b.1 = .lt := by
    refine m.ascending.filterMap _ fun a a' hlt b hb b' hb' => ?_
    obtain ⟨_, -, rfl⟩ := Option.map_eq_some_iff.1 hb
    obtain ⟨_, -, rfl⟩ := Option.map_eq_some_iff.1 hb'
    exact hlt
  apply Option.ext
  intro value
  rw [← mem_entries, entries_ofList hascending, List.mem_filterMap, Option.bind_eq_some_iff]
  constructor
  · rintro ⟨⟨other, old⟩, hmem, hvalue⟩
    obtain ⟨_, hf, heq⟩ := Option.map_eq_some_iff.1 hvalue
    cases heq
    exact ⟨old, mem_entries.1 hmem, hf⟩
  · rintro ⟨old, hold, hf⟩
    exact ⟨(key, old), mem_entries.2 hold, by rw [hf]; rfl⟩

end SortedMap

namespace Registry

/-- A registry that has back whatever it packs. -/
def Restores (r : Registry) : Prop :=
  ∀ name value payload, (r.pack name value ∅).1 = some payload → r.restore? name value = some value

/-- The catalog alone has back whatever it packs. -/
theorem restores_catalog : Restores {} := by
  intro name value payload h
  obtain ⟨hname, rule, hrule, hencode⟩ := exists_rule_of_catalog h
  exact restore?_of_catalog {} hname hrule hencode

end Registry

variable {r : Registry} (h : r.Restores)

include h

theorem Attributes.entries_restored (a : Attributes) :
    (a.restored r).entries = a.entries.filter fun entry => (r.pack entry.1 entry.2 ∅).1.isSome := by
  have hkept : (fun entry : String × Value => (r.restore? entry.1 entry.2).map (entry.1, ·)) =
      Option.guard fun entry => (r.pack entry.1 entry.2 ∅).1.isSome := by
    funext ⟨name, value⟩
    cases hpack : (r.pack name value ∅).1 with
    | none => simp [Registry.restore?, Option.guard, hpack]
    | some payload => simp [h name value payload hpack, Option.guard, hpack]
  rw [restored, hkept, List.filterMap_eq_filter]
  exact SortedMap.entries_ofList (a.ascending.filter _)

/-- What was left out is not there any more, and the payloads of the others are the same. -/
theorem Registry.packed_restored (hpure : r.custom.Pure) (a : Attributes) :
    r.packed (a.restored r).entries = { r.packed a.entries with dropped := [] } := by
  have hnone : (a.entries.filter fun entry => (r.pack entry.1 entry.2 ∅).1.isNone &&
      (r.pack entry.1 entry.2 ∅).1.isSome) = [] := by
    refine List.filter_eq_nil_iff.2 fun entry _ => ?_
    cases (r.pack entry.1 entry.2 ∅).1 <;> simp
  rw [packed_eq hpure, packed_eq hpure, a.entries_restored h, List.filter_filter, hnone,
    List.filterMap_filter]
  congr 2
  funext entry
  cases (r.pack entry.1 entry.2 ∅).1 <;> rfl

end HardwareMap
