import HardwareMap.Proofs.Topology.Invariant

/-!
# The live paths of a graph

The list of live paths is ascending in the handles and holds every live path, and these two facts
determine it (`eq_of_ascending`).  In a well-formed graph the paths that are looked up at a component
are those that touch it.
-/

namespace HardwareMap

/-- A list in ascending order of its keys is determined by its members. -/
theorem eq_of_ascending {α : Type} (key : α → Nat) {l l' : List α}
    (h : l.Pairwise fun a b => key a < key b) (h' : l'.Pairwise fun a b => key a < key b)
    (hmem : ∀ a, a ∈ l ↔ a ∈ l') : l = l' := by
  have hnodup {m : List α} (hm : m.Pairwise fun a b => key a < key b) : m.Nodup :=
    hm.imp fun hlt heq => Nat.ne_of_lt hlt (congrArg key heq)
  exact List.Perm.eq_of_pairwise (fun _ _ _ _ hab hba => absurd hba (Nat.lt_asymm hab)) h h'
    ((List.perm_ext_iff_of_nodup (hnodup h) (hnodup h')).2 hmem)

namespace Graph

variable {g : Graph}

theorem mem_livePathList {id : PathId} {path : DataPath} :
    (id, path) ∈ g.livePathList ↔ g.path? id = some path := by
  rw [livePathList, List.mem_filterMap, path?]
  constructor
  · rintro ⟨⟨slot, i⟩, hmem, heq⟩
    obtain ⟨p, rfl, hp⟩ := Option.map_eq_some_iff.1 heq
    cases hp
    have hget := List.mk_mem_zipIdx_iff_getElem?.1 hmem
    rw [Array.getElem?_toList] at hget
    rw [hget]
    rfl
  · intro h
    refine ⟨(some path, id), ?_, rfl⟩
    rw [List.mk_mem_zipIdx_iff_getElem?, Array.getElem?_toList]
    exact Option.join_eq_some_iff.1 h

theorem livePathList_ascending (g : Graph) : g.livePathList.Pairwise fun a b => a.1 < b.1 := by
  have hindices : g.paths.toList.zipIdx.Pairwise fun a b => a.2 < b.2 := by
    rw [← List.pairwise_map (R := fun a b => a < b), List.zipIdx_map_snd]
    exact List.pairwise_lt_range'
  refine List.Pairwise.filterMap _ (fun a b hlt c hc d hd => ?_) hindices
  obtain ⟨p, -, hp⟩ := Option.map_eq_some_iff.1 hc
  obtain ⟨q, -, hq⟩ := Option.map_eq_some_iff.1 hd
  cases hp
  cases hq
  exact hlt

theorem mem_foldl_append {l found : List PathId} {id : PathId} :
    id ∈ l.foldl (fun found path => if path ∈ found then found else found ++ [path]) found ↔
      id ∈ found ∨ id ∈ l := by
  induction l generalizing found with
  | nil => simp
  | cons path rest ih =>
    rw [List.foldl_cons, ih, List.mem_cons]
    by_cases h : path ∈ found
    · rw [if_pos h]
      constructor
      · rintro (hf | hr)
        · exact .inl hf
        · exact .inr (.inr hr)
      · rintro (hf | rfl | hr)
        · exact .inl hf
        · exact .inl h
        · exact .inr hr
    · rw [if_neg h, List.mem_append, List.mem_singleton, or_assoc]

theorem outgoingAt_pos {p : DataPath} {c : ComponentId} :
    0 < p.outgoingAt c ↔ p.source = c ∨ p.orientation = .bidirectional ∧ p.target = c := by
  unfold DataPath.outgoingAt
  by_cases hs : p.source = c <;> by_cases ht : p.orientation = .bidirectional ∧ p.target = c <;>
    simp [hs, ht]

theorem incomingAt_pos {p : DataPath} {c : ComponentId} :
    0 < p.incomingAt c ↔ p.target = c ∨ p.orientation = .bidirectional ∧ p.source = c := by
  unfold DataPath.incomingAt
  by_cases hs : p.target = c <;> by_cases ht : p.orientation = .bidirectional ∧ p.source = c <;>
    simp [hs, ht]

theorem Registered.mem_outgoing (h : Registered g) {c : ComponentId} {id : PathId} :
    id ∈ g.outgoing c ↔ ∃ p, g.path? id = some p ∧ 0 < p.outgoingAt c := by
  refine ⟨h.path?_of_mem_outgoing, ?_⟩
  rintro ⟨p, hp, hpos⟩
  rw [← List.count_pos_iff, h.count_outgoing, outgoingCount, hp]
  exact hpos

theorem Registered.mem_incoming (h : Registered g) {c : ComponentId} {id : PathId} :
    id ∈ g.incoming c ↔ ∃ p, g.path? id = some p ∧ 0 < p.incomingAt c := by
  refine ⟨h.path?_of_mem_incoming, ?_⟩
  rintro ⟨p, hp, hpos⟩
  rw [← List.count_pos_iff, h.count_incoming, incomingCount, hp]
  exact hpos

/-- The paths at a component are those that have it as an end. -/
theorem Registered.mem_pathsOf_any (h : Registered g) {c : ComponentId} {id : PathId} :
    id ∈ g.pathsOf c .any ↔
      ∃ p, g.path? id = some p ∧ (p.source = c ∨ p.target = c) := by
  have hany : id ∈ g.pathsOf c .any ↔ id ∈ g.outgoing c ∨ id ∈ g.incoming c := by
    simp only [outgoing, incoming, pathsOf]
    cases g.member? c with
    | none => simp
    | some m => exact mem_foldl_append
  rw [hany, h.mem_outgoing, h.mem_incoming, ← exists_or]
  refine exists_congr fun p => ?_
  rw [← and_or_left, outgoingAt_pos, incomingAt_pos]
  refine and_congr_right fun _ => ⟨?_, ?_⟩
  · rintro ((hs | ⟨-, ht⟩) | (ht | ⟨-, hs⟩))
    · exact .inl hs
    · exact .inr ht
    · exact .inr ht
    · exact .inl hs
  · rintro (hs | ht)
    · exact .inl (.inl hs)
    · exact .inr (.inl ht)

end Graph

end HardwareMap
