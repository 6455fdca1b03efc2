import HardwareMap.Proofs.Topology.Invariant
import Mathlib.Data.List.Perm.Subperm

/-!
# Subtrees in their order

`Visits g pending order` says that `order` lists the pending components and all below them, each
before its children and whatever is pending behind it.  In a forest every list of components is
visited in some order (`Forest.exists_visits`), and counting parents shows that the visit of one
component meets no other twice (`Forest.nodup_of_visits`).  So `Graph.subtree`, which takes no more
steps than there are components, comes to the end of it (`Forest.visits_subtree`).
-/

namespace HardwareMap

namespace Graph

/-- The components from the pending ones down, each before its children. -/
inductive Visits (g : Graph) : List ComponentId → List ComponentId → Prop
  | nil : Visits g [] []
  | cons {c : ComponentId} {pending order : List ComponentId}
      (h : Visits g (g.children c ++ pending) order) : Visits g (c :: pending) (c :: order)

namespace Visits

variable {g : Graph} {pending order : List ComponentId}

theorem append (h : Visits g pending order) {pending' order' : List ComponentId}
    (h' : Visits g pending' order') : Visits g (pending ++ pending') (order ++ order') := by
  induction h with
  | nil => exact h'
  | cons _ ih =>
    rw [List.append_assoc] at ih
    exact .cons ih

/-- Who is visited depends on the children alone. -/
theorem congr (h : Visits g pending order) {g' : Graph}
    (hchildren : ∀ c, g'.children c = g.children c) : Visits g' pending order := by
  induction h with
  | nil => exact .nil
  | @cons c pending order _ ih =>
    rw [← hchildren c] at ih
    exact .cons ih

/-- Pending components are visited in the order in which they wait. -/
theorem sublist (h : Visits g pending order) : pending.Sublist order := by
  induction h with
  | nil => exact List.Sublist.refl _
  | cons _ ih => exact ((List.sublist_append_right _ _).trans ih).cons_cons _

theorem children_sublist (h : Visits g pending order) {c : ComponentId} (hc : c ∈ order) :
    (g.children c).Sublist order := by
  induction h with
  | nil => cases hc
  | cons h ih =>
    rcases List.mem_cons.1 hc with rfl | hc
    · exact ((List.sublist_append_left _ _).trans h.sublist).cons _
    · exact (ih hc).cons _

/-- The first pending component is visited first. -/
theorem head?_eq {c : ComponentId} (h : Visits g (c :: pending) order) : order.head? = some c := by
  cases h
  rfl

theorem walk_eq (h : Visits g pending order) {steps : Nat} (hsteps : order.length ≤ steps) :
    g.walk steps pending = order := by
  induction h generalizing steps with
  | nil => cases steps <;> rfl
  | cons _ ih =>
    cases steps with
    | zero => cases hsteps
    | succ steps => rw [walk, ih (Nat.le_of_succ_le_succ hsteps)]

/-- Whoever is visited was pending or is a child of a visited component. -/
theorem count_eq (h : Visits g pending order) (c : ComponentId) :
    order.count c = pending.count c + (order.flatMap g.children).count c := by
  induction h with
  | nil => rfl
  | cons _ ih =>
    rw [List.count_cons, List.count_cons, ih, List.count_append, List.flatMap_cons,
      List.count_append]
    omega

end Visits

/-- There is nothing below a component that does not exist. -/
theorem root_lt_size_of_mem_subtree {g : Graph} {root c : ComponentId} (hc : c ∈ g.subtree root) :
    root < g.size := by
  rw [subtree] at hc
  split at hc
  · next hroot => exact hroot
  · cases hc

namespace Forest

variable {g : Graph} (h : Forest g)

include h

omit h in
theorem exists_visits_of_forall {l : List ComponentId}
    (hl : ∀ c ∈ l, ∃ order, Visits g [c] order) : ∃ order, Visits g l order := by
  induction l with
  | nil => exact ⟨[], .nil⟩
  | cons c rest ih =>
    obtain ⟨first, hfirst⟩ := hl c List.mem_cons_self
    obtain ⟨others, hothers⟩ := ih fun d hd => hl d (List.mem_cons_of_mem _ hd)
    exact ⟨first ++ others, hfirst.append hothers⟩

/-- Children are younger than their parent, so the way down ends. -/
theorem exists_visits (c : ComponentId) : ∃ order, Visits g [c] order := by
  induction hn : g.size - c using Nat.strongRecOn generalizing c with
  | _ n ih =>
    obtain ⟨order, horder⟩ := exists_visits_of_forall (l := g.children c) fun d hd => by
      have hlt := h.lt_of_mem_children hd
      refine ih (g.size - d) ?_ d rfl
      rw [← hn]
      exact Nat.sub_lt_sub_left (Nat.lt_trans hlt.1 hlt.2) hlt.1
    exact ⟨c :: order, .cons (by rw [List.append_nil]; exact horder)⟩

theorem count_flatMap_children (order : List ComponentId) (c : ComponentId) :
    (order.flatMap g.children).count c =
      match g.parent? c with
      | some p => order.count p
      | none => 0 := by
  induction order with
  | nil => cases g.parent? c <;> rfl
  | cons d rest ih =>
    rw [List.flatMap_cons, List.count_append, h.count_children, ih]
    cases hp : g.parent? c with
    | none => simp
    | some p =>
      by_cases hpd : p = d
      · subst hpd
        simp [Nat.add_comm]
      · have hne : ¬ (some p = some d) := fun e => hpd (Option.some.inj e)
        simp only [if_neg hne, Nat.zero_add, List.count_cons_of_ne (Ne.symm hpd)]

variable {root : ComponentId} {order : List ComponentId}

theorem count_eq_zero_of_lt (hv : Visits g [root] order) {c : ComponentId} (hc : c < root) :
    order.count c = 0 := by
  induction c using Nat.strongRecOn with
  | _ c ih =>
    have hpending : [root].count c = 0 :=
      List.count_eq_zero.2 fun hmem => Nat.ne_of_lt hc (List.mem_singleton.1 hmem)
    rw [hv.count_eq, hpending, h.count_flatMap_children]
    cases hp : g.parent? c with
    | none => rfl
    | some p =>
      have hlt := h.parent_lt c p hp
      simp only [ih p hlt (Nat.lt_trans hlt hc)]

theorem count_le_one (hv : Visits g [root] order) (c : ComponentId) : order.count c ≤ 1 := by
  induction c using Nat.strongRecOn with
  | _ c ih =>
    rw [hv.count_eq, h.count_flatMap_children]
    by_cases hc : c = root
    · subst hc
      rw [List.count_singleton_self]
      cases hp : g.parent? c with
      | none => exact Nat.le_refl 1
      | some p => simp only [h.count_eq_zero_of_lt hv (h.parent_lt c p hp), Nat.le_refl]
    · have hpending : [root].count c = 0 :=
        List.count_eq_zero.2 fun hmem => hc (List.mem_singleton.1 hmem)
      rw [hpending, Nat.zero_add]
      cases hp : g.parent? c with
      | none => exact Nat.zero_le 1
      | some p => exact ih p (h.parent_lt c p hp)

/-- No component is visited twice on the way down from one. -/
theorem nodup_of_visits (hv : Visits g [root] order) : order.Nodup :=
  List.nodup_iff_count.2 (h.count_le_one hv)

/-- Below a component are its children, and whatever is below these. -/
theorem mem_visits_iff (hv : Visits g [root] order) (c : ComponentId) :
    c ∈ order ↔ c = root ∨ ∃ p ∈ order, g.parent? c = some p := by
  rw [← List.count_pos_iff, hv.count_eq, h.count_flatMap_children, Nat.add_pos_iff_pos_or_pos,
    List.count_pos_iff, List.mem_singleton]
  cases hp : g.parent? c with
  | none => simp
  | some p => simp

/-- Nothing below a component is older than the component. -/
theorem le_of_mem_visits (hv : Visits g [root] order) {c : ComponentId} (hc : c ∈ order) :
    root ≤ c :=
  Nat.le_of_not_lt fun hlt => List.count_eq_zero.1 (h.count_eq_zero_of_lt hv hlt) hc

theorem lt_size_of_mem_visits (hv : Visits g [root] order) (hroot : root < g.size)
    {c : ComponentId} (hc : c ∈ order) : c < g.size := by
  rcases (h.mem_visits_iff hv c).1 hc with rfl | ⟨p, -, hp⟩
  · exact hroot
  · exact lt_of_parent? hp

theorem length_visits_le (hv : Visits g [root] order) (hroot : root < g.size) :
    order.length ≤ g.size := by
  have hsub : order ⊆ List.range g.size := fun c hc =>
    List.mem_range.2 (h.lt_size_of_mem_visits hv hroot hc)
  have hle := (List.subperm_of_subset (h.nodup_of_visits hv) hsub).length_le
  rwa [List.length_range] at hle

theorem subtree_eq (hv : Visits g [root] order) (hroot : root < g.size) :
    g.subtree root = order := by
  have hwalk : g.walk g.members.size [root] = order := hv.walk_eq (h.length_visits_le hv hroot)
  rw [subtree, if_pos (show root < g.members.size from hroot), hwalk]

/-- The subtree of a component is the whole of what is visited from it on. -/
theorem visits_subtree (hroot : root < g.size) : Visits g [root] (g.subtree root) := by
  obtain ⟨order, hv⟩ := h.exists_visits root
  rw [h.subtree_eq hv hroot]
  exact hv

theorem nodup_subtree (hroot : root < g.size) : (g.subtree root).Nodup :=
  h.nodup_of_visits (h.visits_subtree hroot)

theorem lt_size_of_mem_subtree {c : ComponentId} (hc : c ∈ g.subtree root) : c < g.size :=
  have hroot := root_lt_size_of_mem_subtree hc
  h.lt_size_of_mem_visits (h.visits_subtree hroot) hroot hc

theorem subtree_congr {g' : Graph} (hsame : SameForest g g') (hroot : root < g.size) :
    g'.subtree root = g.subtree root :=
  (h.congr hsame).subtree_eq ((h.visits_subtree hroot).congr hsame.children_eq)
    (by rw [hsame.size_eq]; exact hroot)

end Forest

end Graph

end HardwareMap
