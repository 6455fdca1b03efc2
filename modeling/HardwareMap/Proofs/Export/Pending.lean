import HardwareMap.Export.PathSection
import HardwareMap.Proofs.Export.Blocks
import HardwareMap.Proofs.Topology.Paths
import Mathlib.Data.List.Induction
import Mathlib.Data.List.Nodup

/-!
# The paths that an export has to write

Walking the placed components and their paths notes, for every live path with a placed end, the
places of its ends (`PendingPaths.get?_ofPlacements`).  What is resolved then are the paths inside
the tree, those with both ends in it, in ascending order of their handles
(`PendingPaths.resolved_ofPlacements`).
-/

namespace HardwareMap

/-- The live paths with both ends among some components, in ascending order of their handles. -/
def Graph.innerPaths (g : Graph) (order : List ComponentId) : List (PathId × DataPath) :=
  g.livePathList.filter fun entry => entry.2.source ∈ order && entry.2.target ∈ order

theorem Graph.mem_innerPaths {g : Graph} {order : List ComponentId} {id : PathId}
    {path : DataPath} :
    (id, path) ∈ g.innerPaths order ↔
      g.path? id = some path ∧ path.source ∈ order ∧ path.target ∈ order := by
  rw [innerPaths, List.mem_filter, mem_livePathList, Bool.and_eq_true, decide_eq_true_eq,
    decide_eq_true_eq]

theorem Graph.innerPaths_ascending (g : Graph) (order : List ComponentId) :
    (g.innerPaths order).Pairwise fun a b => a.1 < b.1 :=
  g.livePathList_ascending.filter _

theorem Graph.nodup_innerPaths (g : Graph) (order : List ComponentId) :
    ((g.innerPaths order).map (·.1)).Nodup :=
  List.pairwise_map.2 ((g.innerPaths_ascending order).imp Nat.ne_of_lt)

/-- The live paths with an end among some components, in ascending order of their handles. -/
def Graph.touchingPaths (g : Graph) (order : List ComponentId) : List (PathId × DataPath) :=
  g.livePathList.filter fun entry => entry.2.source ∈ order || entry.2.target ∈ order

theorem Graph.mem_touchingPaths {g : Graph} {order : List ComponentId} {id : PathId}
    {path : DataPath} :
    (id, path) ∈ g.touchingPaths order ↔
      g.path? id = some path ∧ (path.source ∈ order ∨ path.target ∈ order) := by
  rw [touchingPaths, List.mem_filter, mem_livePathList, Bool.or_eq_true, decide_eq_true_eq,
    decide_eq_true_eq]

/-- The live paths with exactly one end among some components, in ascending order of their
handles. -/
def Graph.crossingPaths (g : Graph) (order : List ComponentId) : List (PathId × DataPath) :=
  g.livePathList.filter fun entry =>
    decide (entry.2.source ∈ order) ^^ decide (entry.2.target ∈ order)

/-- A path that touches components has one end among them, or both. -/
theorem Graph.length_touchingPaths (g : Graph) (order : List ComponentId) :
    (g.touchingPaths order).length =
      (g.innerPaths order).length + (g.crossingPaths order).length := by
  rw [touchingPaths, innerPaths, crossingPaths]
  induction g.livePathList with
  | nil => rfl
  | cons entry rest ih =>
    simp only [List.filter_cons]
    by_cases hs : entry.2.source ∈ order <;> by_cases ht : entry.2.target ∈ order <;>
      simp only [hs, ht, decide_true, decide_false, Bool.or_true, Bool.or_false, Bool.and_true,
        Bool.and_false, Bool.xor_true, Bool.xor_false, Bool.not_true, Bool.not_false, if_true,
        Bool.false_eq_true, if_false, List.length_cons] <;> omega

namespace Placement

variable {placements : List Placement} {c : ComponentId}

theorem offsetOf?_append (placements : List Placement) (last : Placement) (c : ComponentId) :
    offsetOf? (placements ++ [last]) c =
      (offsetOf? placements c).or (if last.component = c then some last.offset else none) := by
  rw [offsetOf?, offsetOf?, List.find?_append, Option.map_or]
  by_cases h : last.component = c <;> simp [h]

theorem offsetOf?_isSome : (offsetOf? placements c).isSome ↔ c ∈ placements.map (·.component) := by
  simp [offsetOf?, List.find?_isSome]

/-- If no component has two places then its offset is that of its place. -/
theorem offsetOf?_eq_some (hnodup : (placements.map (·.component)).Nodup) {offset : Nat} :
    offsetOf? placements c = some offset ↔ { component := c, offset } ∈ placements := by
  have hkey {p : Placement} (hfind : placements.find? (·.component == c) = some p) :
      p.component = c := by
    have hkey := List.find?_some hfind
    exact beq_iff_eq.1 hkey
  rw [offsetOf?, Option.map_eq_some_iff]
  constructor
  · rintro ⟨p, hfind, rfl⟩
    obtain rfl := hkey hfind
    exact List.mem_of_find?_eq_some hfind
  · intro hmem
    have hisSome : (placements.find? (·.component == c)).isSome :=
      List.find?_isSome.2 ⟨_, hmem, beq_self_eq_true c⟩
    obtain ⟨p, hfind⟩ := Option.isSome_iff_exists.1 hisSome
    refine ⟨p, hfind, ?_⟩
    rw [List.inj_on_of_nodup_map hnodup (List.mem_of_find?_eq_some hfind) hmem (hkey hfind)]

theorem offsetOf?_eq_none (h : c ∉ placements.map (·.component)) : offsetOf? placements c = none := by
  rw [← Option.not_isSome_iff_eq_none, offsetOf?_isSome]
  exact h

end Placement

/-- The places of the ends of a path, as far as they have one. -/
def PendingPath.ofEnds (placements : List Placement) (path : DataPath) : PendingPath where
  source := Placement.offsetOf? placements path.source
  target := Placement.offsetOf? placements path.target

namespace PendingPaths

/-- The slot of a path after the place of one component was noted. -/
def note (placement : Placement) (path : DataPath) (slot : PendingPath) : PendingPath where
  source := if path.source = placement.component then some placement.offset else slot.source
  target := if path.target = placement.component then some placement.offset else slot.target

theorem note_note (placement : Placement) (path : DataPath) (slot : PendingPath) :
    note placement path (note placement path slot) = note placement path slot := by
  simp only [note]
  split <;> split <;> rfl

theorem get?_notePaths (g : Graph) (placement : Placement) (pending : PendingPaths)
    (ids : List PathId) (id : PathId) :
    (notePaths g placement pending ids).get? id =
      match g.path? id with
      | none => pending.get? id
      | some path =>
        if id ∈ ids then some (note placement path ((pending.get? id).getD {}))
        else pending.get? id := by
  induction ids generalizing pending with
  | nil => cases g.path? id <;> rfl
  | cons i rest ih =>
    rw [notePaths, List.foldl_cons, ← notePaths, ih]
    by_cases hi : i = id
    · subst hi
      cases hp : g.path? i with
      | none => rfl
      | some path =>
        -- The same place noted twice is noted once.
        simp only [SortedMap.get?_insert, if_true, List.mem_cons, true_or]
        split
        · exact congrArg some (note_note placement path _)
        · rfl
    · have hmem : id ∈ i :: rest ↔ id ∈ rest := by
        rw [List.mem_cons]
        exact ⟨fun h => h.resolve_left (Ne.symm hi), .inr⟩
      cases g.path? i with
      | none => simp only [hmem]
      | some path => simp only [SortedMap.get?_insert, if_neg hi, hmem]

theorem note_ofEnds {placements : List Placement} {last : Placement}
    (h : last.component ∉ placements.map (·.component)) (path : DataPath) :
    note last path (.ofEnds placements path) = .ofEnds (placements ++ [last]) path := by
  have hend (c : ComponentId) :
      (if c = last.component then some last.offset else Placement.offsetOf? placements c) =
        Placement.offsetOf? (placements ++ [last]) c := by
    rw [Placement.offsetOf?_append]
    by_cases hc : c = last.component
    · subst hc
      rw [if_pos rfl, Placement.offsetOf?_eq_none h, if_pos rfl, Option.none_or]
    · rw [if_neg hc, if_neg (Ne.symm hc), Option.or_none]
  simp only [note, PendingPath.ofEnds, hend]

/-- Pending are the live paths with an end that has a place, with the places of both ends. -/
theorem get?_ofPlacements {g : Graph} (h : g.Registered) {placements : List Placement}
    (hnodup : (placements.map (·.component)).Nodup) (id : PathId) :
    (ofPlacements g placements).get? id =
      match g.path? id with
      | none => none
      | some path =>
        if PendingPath.ofEnds placements path = {} then none
        else some (.ofEnds placements path) := by
  induction placements using List.reverseRecOn with
  | nil => cases g.path? id <;> rfl
  | append_singleton placements last ih =>
    rw [List.map_append, List.nodup_append] at hnodup
    obtain ⟨hnodup, -, hdisjoint⟩ := hnodup
    have hlast : last.component ∉ placements.map (·.component) := fun hmem =>
      hdisjoint _ hmem _ List.mem_cons_self rfl
    rw [ofPlacements, List.foldl_append, ← ofPlacements, List.foldl_cons, List.foldl_nil,
      get?_notePaths, ih hnodup]
    cases hp : g.path? id with
    | none => rfl
    | some path =>
      have hslot : (if PendingPath.ofEnds placements path = {} then none
          else some (PendingPath.ofEnds placements path)).getD {} = .ofEnds placements path := by
        split
        · next hempty => exact hempty.symm
        · rfl
      have htouch : id ∈ g.pathsOf last.component .any ↔
          path.source = last.component ∨ path.target = last.component := by
        rw [h.mem_pathsOf_any, hp]
        exact ⟨fun ⟨_, rfl, hends⟩ => hends, fun hends => ⟨path, rfl, hends⟩⟩
      simp only [hslot, note_ofEnds hlast]
      by_cases hends : path.source = last.component ∨ path.target = last.component
      · have hne : PendingPath.ofEnds (placements ++ [last]) path ≠ {} := by
          rw [← note_ofEnds hlast]
          intro hempty
          rcases hends with hs | ht
          · simpa [note, hs] using congrArg PendingPath.source hempty
          · simpa [note, ht] using congrArg PendingPath.target hempty
        rw [if_pos (htouch.2 hends), if_neg hne]
      · have hsame : PendingPath.ofEnds (placements ++ [last]) path = .ofEnds placements path := by
          obtain ⟨hs, ht⟩ := not_or.1 hends
          rw [← note_ofEnds hlast, note, if_neg hs, if_neg ht]
        rw [if_neg (mt htouch.1 hends), hsame]

theorem mem_resolved {pending : PendingPaths} {id : PathId} {source target : Nat} :
    (id, source, target) ∈ pending.resolved ↔
      pending.get? id = some { source := some source, target := some target } := by
  rw [resolved, List.mem_filterMap, ← SortedMap.mem_entries]
  constructor
  · rintro ⟨⟨i, slot⟩, hmem, heq⟩
    obtain ⟨ends, hends, hpair⟩ := Option.map_eq_some_iff.1 heq
    cases hpair
    obtain ⟨s, t⟩ := slot
    cases s with
    | none => cases hends
    | some s =>
      cases t with
      | none => cases hends
      | some t =>
        cases hends
        exact hmem
  · intro hmem
    exact ⟨_, hmem, rfl⟩

theorem resolved_ascending (pending : PendingPaths) :
    pending.resolved.Pairwise fun a b => a.1 < b.1 := by
  refine List.Pairwise.filterMap _ (fun a b hlt c hc d hd => ?_) pending.ascending
  obtain ⟨p, -, hp⟩ := Option.map_eq_some_iff.1 hc
  obtain ⟨q, -, hq⟩ := Option.map_eq_some_iff.1 hd
  cases hp
  cases hq
  exact Nat.compare_eq_lt.1 hlt

/-- Resolved are the paths inside of the tree, with the places of their ends. -/
theorem resolved_ofPlacements {g : Graph} (h : g.Registered) {placements : List Placement}
    (hnodup : (placements.map (·.component)).Nodup) :
    (ofPlacements g placements).resolved =
      (g.innerPaths (placements.map (·.component))).map fun entry =>
        (entry.1, (Placement.offsetOf? placements entry.2.source).getD 0,
          (Placement.offsetOf? placements entry.2.target).getD 0) := by
  refine eq_of_ascending Prod.fst (resolved_ascending _)
    (List.pairwise_map.2 (g.innerPaths_ascending _)) fun ⟨id, source, target⟩ => ?_
  rw [mem_resolved, get?_ofPlacements h hnodup, List.mem_map]
  constructor
  · intro hget
    cases hp : g.path? id with
    | none =>
      rw [hp] at hget
      cases hget
    | some path =>
      simp only [hp] at hget
      split at hget
      · cases hget
      · have hends := Option.some.inj hget
        have hs : Placement.offsetOf? placements path.source = some source :=
          congrArg PendingPath.source hends
        have ht : Placement.offsetOf? placements path.target = some target :=
          congrArg PendingPath.target hends
        refine ⟨(id, path), Graph.mem_innerPaths.2 ⟨hp, ?_, ?_⟩, by simp only [hs, ht]; rfl⟩
        · rw [← Placement.offsetOf?_isSome, hs]
          rfl
        · rw [← Placement.offsetOf?_isSome, ht]
          rfl
  · rintro ⟨⟨i, path⟩, hmem, heq⟩
    cases heq
    obtain ⟨hp, hs, ht⟩ := Graph.mem_innerPaths.1 hmem
    obtain ⟨s, hs⟩ := Option.isSome_iff_exists.1 (Placement.offsetOf?_isSome.2 hs)
    obtain ⟨t, ht⟩ := Option.isSome_iff_exists.1 (Placement.offsetOf?_isSome.2 ht)
    have hends : PendingPath.ofEnds placements path = { source := some s, target := some t } := by
      simp only [PendingPath.ofEnds, hs, ht]
    simp only [hp, hs, ht, hends, Option.getD_some]
    exact if_neg (fun hempty => by cases hempty)

theorem ofEnds_eq_empty {placements : List Placement} {path : DataPath} :
    PendingPath.ofEnds placements path = {} ↔
      path.source ∉ placements.map (·.component) ∧ path.target ∉ placements.map (·.component) := by
  rw [← Placement.offsetOf?_isSome, ← Placement.offsetOf?_isSome, Option.not_isSome_iff_eq_none,
    Option.not_isSome_iff_eq_none, PendingPath.ofEnds, PendingPath.mk.injEq]

/-- Pending are the live paths with an end that has a place, each once. -/
theorem keys_ofPlacements {g : Graph} (h : g.Registered) {placements : List Placement}
    (hnodup : (placements.map (·.component)).Nodup) :
    (ofPlacements g placements).keys =
      (g.touchingPaths (placements.map (·.component))).map (·.1) := by
  refine eq_of_ascending id
    (List.pairwise_map.2 ((ofPlacements g placements).ascending.imp Nat.compare_eq_lt.1))
    (List.pairwise_map.2 (g.livePathList_ascending.filter _)) fun i => ?_
  have hkey : i ∈ (ofPlacements g placements).keys ↔
      ∃ slot, (ofPlacements g placements).get? i = some slot := by
    rw [SortedMap.keys, List.mem_map]
    constructor
    · rintro ⟨⟨_, slot⟩, hentry, rfl⟩
      exact ⟨slot, SortedMap.mem_entries.1 hentry⟩
    · rintro ⟨slot, hget⟩
      exact ⟨(i, slot), SortedMap.mem_entries.2 hget, rfl⟩
  rw [hkey, get?_ofPlacements h hnodup, List.mem_map]
  constructor
  · rintro ⟨slot, hget⟩
    cases hp : g.path? i with
    | none =>
      rw [hp] at hget
      cases hget
    | some path =>
      simp only [hp] at hget
      split at hget
      · cases hget
      next hends =>
        rw [ofEnds_eq_empty, not_and_or, not_not, not_not] at hends
        exact ⟨(i, path), Graph.mem_touchingPaths.2 ⟨hp, hends⟩, rfl⟩
  · rintro ⟨⟨_, path⟩, hentry, rfl⟩
    obtain ⟨hp, hends⟩ := Graph.mem_touchingPaths.1 hentry
    simp only [hp]
    rw [if_neg (by rw [ofEnds_eq_empty, not_and_or, not_not, not_not]; exact hends)]
    exact ⟨_, rfl⟩

/-- What is pending and not resolved are the paths with one end in the tree. -/
theorem size_ofPlacements {g : Graph} (h : g.Registered) {placements : List Placement}
    (hnodup : (placements.map (·.component)).Nodup) :
    (ofPlacements g placements).size =
      (g.innerPaths (placements.map (·.component))).length +
        (g.crossingPaths (placements.map (·.component))).length := by
  rw [← Graph.length_touchingPaths, ← List.length_map (·.1), ← keys_ofPlacements h hnodup,
    SortedMap.keys, List.length_map]
  rfl

end PendingPaths

end HardwareMap
