import HardwareMap.Proofs.Topology.Subtree

/-!
# Lineages

Going up from a component, its parent comes first, then the parent of that one, and so on until there is
none (`Graph.Lineage`).  In a forest parents are older, so the way up always ends, and
`Graph.ancestors` is all of it.  Below a component are just those that have it in their lineage
(`Graph.Forest.mem_subtree_iff`).

The pre-order lists a component and then, child by child, what it lists of each (`Graph.DepthFirst`).  In a
forest there is one such order at most, since children are younger, and `Graph.subtree` is the one.
-/

namespace HardwareMap

namespace Graph

variable {g : Graph}

/-! ## Going up -/

/-- The parents above a component, up to one that has none. -/
inductive Lineage (g : Graph) : ComponentId → List ComponentId → Prop
  | root {c : ComponentId} (h : g.parent? c = none) : Lineage g c []
  | child {c p : ComponentId} {above : List ComponentId} (h : g.parent? c = some p)
      (habove : Lineage g p above) : Lineage g c (p :: above)

theorem ancestors_of_root {c : ComponentId} (h : g.parent? c = none) : g.ancestors c = [] := by
  rw [ancestors, h]

namespace Forest

variable (h : Forest g)

include h

theorem ancestors_of_parent? {c p : ComponentId} (hp : g.parent? c = some p) :
    g.ancestors c = p :: g.ancestors p := by
  rw [ancestors, hp]
  simp only [if_pos (h.parent_lt c p hp)]

/-- The way up ends, and `ancestors` goes to the end of it. -/
theorem lineage_ancestors (c : ComponentId) : Lineage g c (g.ancestors c) := by
  induction c using Nat.strongRecOn with
  | _ c ih =>
    cases hp : g.parent? c with
    | none =>
      rw [ancestors_of_root hp]
      exact .root hp
    | some p =>
      rw [h.ancestors_of_parent? hp]
      exact .child hp (ih p (h.parent_lt c p hp))

theorem depth_of_parent? {c p : ComponentId} (hp : g.parent? c = some p) :
    g.depth c = g.depth p + 1 := by
  rw [depth, h.ancestors_of_parent? hp, List.length_cons, depth]

/-! ## Going down -/

/-- Below a component is whoever has it among the ancestors. -/
theorem mem_subtree_iff {c : ComponentId} (hc : c < g.size) (d : ComponentId) :
    d ∈ g.subtree c ↔ d = c ∨ c ∈ g.ancestors d := by
  have hv := h.visits_subtree hc
  induction d using Nat.strongRecOn with
  | _ d ih =>
    rw [h.mem_visits_iff hv]
    refine or_congr_right ?_
    cases hp : g.parent? d with
    | none => simp [ancestors_of_root hp]
    | some p =>
      have hrec : p ∈ g.subtree c ↔ p = c ∨ c ∈ g.ancestors p := ih p (h.parent_lt d p hp)
      rw [h.ancestors_of_parent? hp, List.mem_cons, eq_comm (a := c), ← hrec]
      simp

theorem mem_subtree_self {c : ComponentId} (hc : c < g.size) : c ∈ g.subtree c :=
  (h.mem_subtree_iff hc c).2 (.inl rfl)

/-- Where parents stay, whatever is below a component is also below all that the component is below. -/
theorem subtree_subperm {g' : Graph} (h' : Forest g')
    (hparent : ∀ c p, g.parent? c = some p → g'.parent? c = some p) {root root' : ComponentId}
    (hroot : root < g.size) (hmem : root ∈ g'.subtree root') :
    (g.subtree root).Subperm (g'.subtree root') := by
  have hv := h.visits_subtree hroot
  have hv' := h'.visits_subtree (root_lt_size_of_mem_subtree hmem)
  refine List.subperm_of_subset (h.nodup_subtree hroot) fun c => ?_
  induction c using Nat.strongRecOn with
  | _ c ih =>
    intro hc
    rcases (h.mem_visits_iff hv c).1 hc with rfl | ⟨p, hp, hcp⟩
    · exact hmem
    · exact (h'.mem_visits_iff hv' c).2 (.inr ⟨p, ih p (h.parent_lt c p hcp) hp, hparent c p hcp⟩)

/-- Whatever is pending is visited subtree by subtree. -/
theorem visits_flatMap {l : List ComponentId} (hl : ∀ c ∈ l, c < g.size) :
    Visits g l (l.flatMap g.subtree) := by
  induction l with
  | nil => exact .nil
  | cons c rest ih =>
    rw [List.flatMap_cons]
    exact (h.visits_subtree (hl c List.mem_cons_self)).append
      (ih fun d hd => hl d (List.mem_cons_of_mem _ hd))

end Forest

/-- The recursive pre-order: it lists a component and then, child by child, what it lists of each. -/
def DepthFirst (g : Graph) (order : ComponentId → List ComponentId) : Prop :=
  ∀ c, c < g.size → order c = c :: (g.children c).flatMap order

namespace Forest

variable (h : Forest g)

include h

theorem depthFirst_subtree : g.DepthFirst g.subtree := by
  intro c hc
  have hchildren := h.visits_flatMap fun d hd => (h.lt_of_mem_children (p := c) hd).2
  refine h.subtree_eq (.cons ?_) hc
  rw [List.append_nil]
  exact hchildren

/-- A visit is what a pre-order lists of whatever is pending. -/
theorem eq_flatMap_of_visits {order : ComponentId → List ComponentId} (horder : g.DepthFirst order)
    {pending visited : List ComponentId} (hv : Visits g pending visited)
    (hpending : ∀ c ∈ pending, c < g.size) : visited = pending.flatMap order := by
  induction hv with
  | nil => rfl
  | @cons c rest visited _ ih =>
    rw [List.flatMap_cons, horder c (hpending c List.mem_cons_self), List.cons_append,
      ← List.flatMap_append, ← ih]
    intro d hd
    rcases List.mem_append.1 hd with hchild | hother
    · exact (h.lt_of_mem_children hchild).2
    · exact hpending d (List.mem_cons_of_mem _ hother)

/-- There is no other pre-order. -/
theorem eq_subtree_of_depthFirst {order : ComponentId → List ComponentId}
    (horder : g.DepthFirst order) {c : ComponentId} (hc : c < g.size) : order c = g.subtree c := by
  have hall := h.eq_flatMap_of_visits horder (h.visits_subtree hc) fun d hd =>
    (List.mem_singleton.1 hd) ▸ hc
  rw [hall, List.flatMap_cons, List.flatMap_nil, List.append_nil]

end Forest

end Graph

end HardwareMap
