/-!
# Maps with their keys in order

A `SortedMap` is a finite map kept as a list of entries with strictly ascending keys, so equal maps
are equal values and walking a map needs no sorting.  Attribute maps, rule tables, file trees and
the tables of an export and an import are all of this form.
-/

namespace HardwareMap

/-- A finite map, as the list of its entries in strictly ascending order of their keys. -/
structure SortedMap (κ β : Type) [Ord κ] where
  entries : List (κ × β)
  ascending : entries.Pairwise fun a b => compare a.1 b.1 = .lt

namespace SortedMap

variable {κ β γ : Type} [Ord κ]

deriving instance DecidableEq for SortedMap

def empty : SortedMap κ β := ⟨[], .nil⟩

instance : EmptyCollection (SortedMap κ β) := ⟨empty⟩
instance : Inhabited (SortedMap κ β) := ⟨empty⟩

@[simp] theorem entries_empty : (∅ : SortedMap κ β).entries = [] := rfl

/-- The entry list with `key` set to `value`, every other entry in its place. -/
def setEntry (key : κ) (value : β) : List (κ × β) → List (κ × β)
  | [] => [(key, value)]
  | entry :: rest =>
    match compare key entry.1 with
    | .lt => (key, value) :: entry :: rest
    | .eq => (key, value) :: rest
    | .gt => entry :: setEntry key value rest

theorem mem_setEntry {key : κ} {value : β} {entry : κ × β} {entries : List (κ × β)}
    (h : entry ∈ setEntry key value entries) : entry = (key, value) ∨ entry ∈ entries := by
  induction entries with
  | nil => simpa [setEntry] using h
  | cons first rest ih =>
    rw [setEntry] at h
    split at h <;> grind

theorem ascending_setEntry [Std.TransOrd κ] [Std.LawfulEqOrd κ] (key : κ) (value : β)
    {entries : List (κ × β)} (h : entries.Pairwise fun a b => compare a.1 b.1 = .lt) :
    (setEntry key value entries).Pairwise fun a b => compare a.1 b.1 = .lt := by
  induction entries with
  | nil => simp [setEntry]
  | cons first rest ih =>
    rw [setEntry]
    have hrest := List.pairwise_cons.1 h
    split
    · next hlt =>
      refine List.pairwise_cons.2 ⟨fun entry hmem => ?_, h⟩
      rcases List.mem_cons.1 hmem with rfl | hin
      · exact hlt
      · exact Std.TransCmp.lt_trans hlt (hrest.1 entry hin)
    · next heq =>
      obtain rfl : key = first.1 := Std.LawfulEqCmp.eq_of_compare heq
      exact List.pairwise_cons.2 ⟨hrest.1, hrest.2⟩
    · next hgt =>
      refine List.pairwise_cons.2 ⟨fun entry hmem => ?_, ih hrest.2⟩
      rcases mem_setEntry hmem with rfl | hin
      · exact Std.OrientedCmp.gt_iff_lt.1 hgt
      · exact hrest.1 entry hin

def insert [Std.TransOrd κ] [Std.LawfulEqOrd κ] (m : SortedMap κ β) (key : κ) (value : β) :
    SortedMap κ β :=
  ⟨setEntry key value m.entries, ascending_setEntry key value m.ascending⟩

def erase (m : SortedMap κ β) (key : κ) : SortedMap κ β :=
  ⟨m.entries.filter fun entry => compare entry.1 key != .eq, m.ascending.filter _⟩

def get? (m : SortedMap κ β) (key : κ) : Option β :=
  (m.entries.find? fun entry => compare entry.1 key == .eq).map (·.2)

def contains (m : SortedMap κ β) (key : κ) : Bool := (m.get? key).isSome

def keys (m : SortedMap κ β) : List κ := m.entries.map (·.1)

def size (m : SortedMap κ β) : Nat := m.entries.length

/-- Sets the values of a list of keys one after the other, so the last value of a key stays. -/
def insertAll [Std.TransOrd κ] [Std.LawfulEqOrd κ] (m : SortedMap κ β) (pairs : List (κ × β)) :
    SortedMap κ β :=
  pairs.foldl (fun m pair => m.insert pair.1 pair.2) m

theorem mem_insertAll [Std.TransOrd κ] [Std.LawfulEqOrd κ] {pairs : List (κ × β)}
    {m : SortedMap κ β} {entry : κ × β} (h : entry ∈ (m.insertAll pairs).entries) :
    entry ∈ pairs ∨ entry ∈ m.entries := by
  induction pairs generalizing m with
  | nil => exact .inr h
  | cons pair rest ih =>
    rcases ih h with hrest | hm
    · exact .inl (List.mem_cons_of_mem _ hrest)
    · rcases mem_setEntry hm with rfl | hold
      · exact .inl List.mem_cons_self
      · exact .inr hold

/-- The map of a list of keys and values, the last value of a key standing. -/
def ofList [Std.TransOrd κ] [Std.LawfulEqOrd κ] (pairs : List (κ × β)) : SortedMap κ β :=
  empty.insertAll pairs

def filter (m : SortedMap κ β) (keep : κ → β → Bool) : SortedMap κ β :=
  ⟨m.entries.filter fun entry => keep entry.1 entry.2, m.ascending.filter _⟩

def mapValues (m : SortedMap κ β) (f : κ → β → γ) : SortedMap κ γ :=
  ⟨m.entries.map fun entry => (entry.1, f entry.1 entry.2),
    m.ascending.map _ fun _ _ h => h⟩

/-- Same keys, with values that agree under `same`. -/
def agree (same : β → β → Bool) (m n : SortedMap κ β) : Bool :=
  go m.entries n.entries
where
  /-- Entry by entry. -/
  go : List (κ × β) → List (κ × β) → Bool
    | [], [] => true
    | a :: as, b :: bs => compare a.1 b.1 == .eq && same a.2 b.2 && go as bs
    | _, _ => false

/-! ### Looking up -/

section Lookup

variable [Std.TransOrd κ] [Std.LawfulEqOrd κ] [DecidableEq κ]

omit [Std.TransOrd κ] in
theorem find?_setEntry (key other : κ) (value : β) (entries : List (κ × β)) :
    ((setEntry key value entries).find? fun entry => compare entry.1 other == .eq).map (·.2) =
      if key = other then some value
      else (entries.find? fun entry => compare entry.1 other == .eq).map (·.2) := by
  have eq_iff (a b : κ) : (compare a b == .eq) = decide (a = b) := by
    by_cases h : a = b <;> simp [h, Std.LawfulEqCmp.compare_eq_iff_eq]
  induction entries with
  | nil => by_cases h : key = other <;> simp [setEntry, eq_iff, h]
  | cons first rest ih =>
    simp only [eq_iff] at ih ⊢
    rw [setEntry]
    split
    · by_cases h : key = other <;> simp [h]
    · next heq =>
      obtain rfl : key = first.1 := Std.LawfulEqCmp.eq_of_compare heq
      by_cases h : first.1 = other <;> simp [h]
    · next hgt =>
      have hne : first.1 ≠ key := by
        rintro rfl
        simp at hgt
      by_cases h : first.1 = other
      · have hk : ¬ key = other := fun hk => hne (h.trans hk.symm)
        simp [h, hk]
      · simp [h, ih]

theorem get?_insert (m : SortedMap κ β) (key other : κ) (value : β) :
    (m.insert key value).get? other = if key = other then some value else m.get? other :=
  find?_setEntry key other value m.entries

omit [Std.TransOrd κ] [DecidableEq κ] in
theorem mem_of_get? {m : SortedMap κ β} {key : κ} {value : β} (h : m.get? key = some value) :
    (key, value) ∈ m.entries := by
  obtain ⟨entry, hfind, rfl⟩ := Option.map_eq_some_iff.1 h
  have hkey := List.find?_some hfind
  obtain rfl : entry.1 = key := Std.LawfulEqCmp.eq_of_compare (beq_iff_eq.1 hkey)
  exact List.mem_of_find?_eq_some hfind

omit [Std.TransOrd κ] [DecidableEq κ] in
theorem mem_entries {m : SortedMap κ β} {key : κ} {value : β} :
    (key, value) ∈ m.entries ↔ m.get? key = some value := by
  refine ⟨fun hmem => ?_, mem_of_get?⟩
  obtain ⟨entries, hascending⟩ := m
  change (entries.find? fun entry => compare entry.1 key == .eq).map (·.2) = some value
  induction entries with
  | nil => cases hmem
  | cons first rest ih =>
    obtain ⟨hfirst, hrest⟩ := List.pairwise_cons.1 hascending
    rcases List.mem_cons.1 hmem with rfl | hmem
    · rw [List.find?_cons_of_pos (by simp)]
      rfl
    · have hlt := hfirst _ hmem
      have hne : ¬(compare first.1 key == .eq) = true := by simp [hlt]
      rw [List.find?_cons_of_neg (by exact hne)]
      exact ih hrest hmem

omit [Std.TransOrd κ] in
theorem get?_erase (m : SortedMap κ β) (key other : κ) :
    (m.erase key).get? other = if key = other then none else m.get? other := by
  apply Option.ext
  intro value
  rw [← mem_entries, erase, List.mem_filter, mem_entries, bne_iff_ne, ne_eq,
    Std.LawfulEqCmp.compare_eq_iff_eq]
  by_cases h : key = other
  · simp [h]
  · simp [h, Ne.symm h]

theorem contains_insert (m : SortedMap κ β) (key other : κ) (value : β) :
    (m.insert key value).contains other = (decide (key = other) || m.contains other) := by
  by_cases h : key = other <;> simp [contains, get?_insert, h]

end Lookup

end SortedMap

end HardwareMap
