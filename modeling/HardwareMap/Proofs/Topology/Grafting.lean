import HardwareMap.Proofs.Topology.Subtree

/-!
# Growing a tree beside a graph

`Graph.Grafted g g'` says that `g'` is `g` with one tree more, or the beginning of one, and with paths
between the components of that tree.  Whatever was in `g` stays as it was, links included, and whatever
is new stands below the one new root.  Adding a component to the tree and adding a path between two of
its components lead from one such graph to another.
-/

namespace HardwareMap

namespace Graph

/-- Two graphs have the same component if its content and its links are the same. -/
theorem member?_congr {g g' : Graph} {c : ComponentId} (hcontent : g'.content? c = g.content? c)
    (hparent : g'.parent? c = g.parent? c) (hchildren : g'.children c = g.children c)
    (houtgoing : g'.outgoing c = g.outgoing c) (hincoming : g'.incoming c = g.incoming c) :
    g'.member? c = g.member? c := by
  cases h : g.content? c with
  | some x =>
    rw [member?_of_content? h, member?_of_content? (hcontent.trans h), hparent, hchildren,
      houtgoing, hincoming]
  | none =>
    rw [h] at hcontent
    rw [Option.map_eq_none_iff.1 h, Option.map_eq_none_iff.1 hcontent]

/-- Everything from a number on stands below the component of that number if, apart from it, whatever
comes later has a parent among them. -/
theorem Forest.forall_mem_subtree_iff {g : Graph} (h : Forest g) {root : ComponentId} :
    (∀ c, root ≤ c → c < g.size → c ∈ g.subtree root) ↔
      ∀ c, root < c → c < g.size → ∃ p, g.parent? c = some p ∧ root ≤ p := by
  constructor
  · intro hall c hc hlt
    have hv := h.visits_subtree (Nat.lt_trans hc hlt)
    rcases (h.mem_visits_iff hv c).1 (hall c (Nat.le_of_lt hc) hlt) with rfl | ⟨p, hp, hparent⟩
    · exact absurd hc (Nat.lt_irrefl _)
    · exact ⟨p, hparent, h.le_of_mem_visits hv hp⟩
  · intro hparents c hc hlt
    have hv := h.visits_subtree (Nat.lt_of_le_of_lt hc hlt)
    induction c using Nat.strongRecOn with
    | _ c ih =>
      rcases Nat.eq_or_lt_of_le hc with rfl | hroot
      · exact (h.mem_visits_iff hv _).2 (.inl rfl)
      · obtain ⟨p, hparent, hp⟩ := hparents c hroot hlt
        have hyounger := h.parent_lt c p hparent
        exact (h.mem_visits_iff hv c).2
          (.inr ⟨p, ih p hyounger hp (Nat.lt_trans hyounger hlt), hparent⟩)

/-- A well-formed graph that extends another one by a tree, or by the beginning of one, and by paths
inside of it. -/
structure Grafted (g g' : Graph) : Prop extends WellFormed g' where
  size_le : g.size ≤ g'.size
  /-- The components that were there are unchanged, with their links and their lists of paths. -/
  member?_eq : ∀ c, c < g.size → g'.member? c = g.member? c
  /-- The paths that were there are unchanged, and the deleted ones stay deleted. -/
  slot_eq : ∀ id, id < g.paths.size → g'.paths[id]? = g.paths[id]?
  /-- The first new component is the only new root. -/
  roots_eq : g'.roots = g.roots ++ if g'.size = g.size then [] else [g.size]
  mem_subtree : ∀ c, g.size ≤ c → c < g'.size → c ∈ g'.subtree g.size

theorem WellFormed.grafted_self {g : Graph} (h : g.WellFormed) : g.Grafted g where
  toWellFormed := h
  size_le := Nat.le_refl _
  member?_eq _ _ := rfl
  slot_eq _ _ := rfl
  roots_eq := by rw [if_pos rfl, List.append_nil]
  mem_subtree _ hc hlt := absurd hlt (Nat.not_lt.2 hc)

namespace Grafted

variable {g g' g'' : Graph} (h : g.Grafted g')

include h

/-- A component comes in as the root of the tree, or below one of its components. -/
theorem added {parent : Option ComponentId} {c : Component} (hadd : Added g' parent c g'')
    (hparent : (parent = none ∧ g'.size = g.size) ∨
      ∃ p, parent = some p ∧ g.size ≤ p ∧ p < g'.size) : g.Grafted g'' := by
  have hknown : ∀ p, parent = some p → g.size ≤ p ∧ p < g'.size := by
    rintro p rfl
    obtain ⟨hnone, -⟩ | ⟨_, ⟨⟩, hp⟩ := hparent
    · cases hnone
    · exact hp
  have hforest := h.toForest.added hadd fun p hp => (hknown p hp).2
  have hne : g''.size ≠ g.size := by
    have hle := h.size_le
    rw [hadd.size_eq]
    omega
  exact {
    toWellFormed := ⟨hforest, h.toRegistered.added hadd⟩
    size_le := by
      rw [hadd.size_eq]
      exact Nat.le_succ_of_le h.size_le
    member?_eq := by
      intro id hid
      have hold : id ≠ g'.size := Nat.ne_of_lt (Nat.lt_of_lt_of_le hid h.size_le)
      have hapart : parent ≠ some id := fun hp => Nat.not_lt.2 (hknown id hp).1 hid
      rw [← h.member?_eq id hid]
      refine member?_congr ?_ ?_ ?_ (hadd.pathsOf_eq id _) (hadd.pathsOf_eq id _)
      · rw [hadd.content?_eq, if_neg hold]
      · rw [hadd.parent?_eq, if_neg hold]
      · rw [hadd.children_eq, if_neg hapart, List.append_nil]
    slot_eq := by
      rw [hadd.paths_eq]
      exact h.slot_eq
    roots_eq := by
      rw [hadd.roots_eq, h.roots_eq, if_neg hne]
      obtain ⟨rfl, hsize⟩ | ⟨p, rfl, hp, hlt⟩ := hparent
      · rw [if_pos hsize, if_pos rfl, hsize, List.append_nil]
      · have hgrown : g'.size ≠ g.size := Nat.ne_of_gt (Nat.lt_of_le_of_lt hp hlt)
        rw [if_neg hgrown, if_neg (Option.some_ne_none p), List.append_nil]
    mem_subtree := by
      refine hforest.forall_mem_subtree_iff.2 fun id hroot hlt => ?_
      rw [hadd.parent?_eq]
      by_cases hnew : id = g'.size
      · rw [if_pos hnew]
        obtain ⟨-, hsize⟩ | ⟨p, hp, hle, -⟩ := hparent
        · exact absurd (hnew.trans hsize) (Nat.ne_of_gt hroot)
        · exact ⟨p, hp, hle⟩
      · rw [hadd.size_eq] at hlt
        rw [if_neg hnew]
        exact h.toForest.forall_mem_subtree_iff.1 h.mem_subtree id hroot
          (Nat.lt_of_le_of_ne (Nat.le_of_lt_succ hlt) hnew) }

/-- A path may join any two components of the tree. -/
theorem joined {path : DataPath} (hjoin : Joined g' path g'')
    (hsource : g.size ≤ path.source ∧ path.source < g'.size)
    (htarget : g.size ≤ path.target ∧ path.target < g'.size) : g.Grafted g'' := by
  have hforest := h.toForest.congr hjoin.toSameForest
  exact {
    toWellFormed := ⟨hforest, h.toRegistered.joined hjoin hsource.2 htarget.2⟩
    size_le := by
      rw [hjoin.size_eq]
      exact h.size_le
    member?_eq := by
      intro id hid
      have hs : path.source ≠ id := Nat.ne_of_gt (Nat.lt_of_lt_of_le hid hsource.1)
      have ht : path.target ≠ id := Nat.ne_of_gt (Nat.lt_of_lt_of_le hid htarget.1)
      rw [← h.member?_eq id hid]
      refine member?_congr (hjoin.content?_eq id) (hjoin.parent?_eq id) (hjoin.children_eq id) ?_ ?_
      · rw [hjoin.outgoing_eq, outgoingAt_eq_zero hs ht, List.replicate_zero, List.append_nil]
      · rw [hjoin.incoming_eq, incomingAt_eq_zero hs ht, List.replicate_zero, List.append_nil]
    slot_eq := by
      intro id hid
      have hold := h.slot_eq id hid
      rw [Array.getElem?_eq_getElem hid] at hold
      obtain ⟨hlt, -⟩ := Array.getElem?_eq_some_iff.1 hold
      rw [hjoin.paths_eq, Array.getElem?_push, if_neg (Nat.ne_of_lt hlt)]
      exact h.slot_eq id hid
    roots_eq := by
      rw [hjoin.roots_eq, hjoin.size_eq]
      exact h.roots_eq
    mem_subtree := by
      refine hforest.forall_mem_subtree_iff.2 fun id hroot hlt => ?_
      rw [hjoin.parent?_eq]
      rw [hjoin.size_eq] at hlt
      exact h.toForest.forall_mem_subtree_iff.1 h.mem_subtree id hroot hlt }

end Grafted

end Graph

end HardwareMap
