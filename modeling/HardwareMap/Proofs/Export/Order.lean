import HardwareMap.Export.Exporter
import HardwareMap.Proofs.Export.Tree
import HardwareMap.Proofs.Topology.Lineage

/-!
# The order of writing

A subtree is listed by one loop and written by another, and each keeps a list of what is pending of its
own.  Whenever the writer comes to an end it has visited what was pending
(`TreeLayout.visits_of_runTasks`), whatever the graph, the rules and the window; and a visit is determined by
what is pending.  So components are placed in the order of the subtree, which is the pre-order of the
tree (`Graph.subtree_eq_preorder`).
-/

namespace HardwareMap

/-- Doing tasks to the end places a visit of their components, behind what was placed before. -/
theorem TreeLayout.visits_of_runTasks {g : Graph} {r : Registry} {tasks : List WriteTask}
    {layout tree : TreeLayout} {pass pass' : Pass}
    (h : runTasks g r tasks layout pass = .ok tree pass') :
    ∃ order, Graph.Visits g (tasks.map (·.component)) order ∧
      tree.placements.map (·.component) = layout.placements.map (·.component) ++ order := by
  fun_induction runTasks g r tasks layout pass with
  | case1 layout pass =>
    cases h
    exact ⟨[], .nil, (List.append_nil _).symm⟩
  | case2 layout pass task rest written pass' hrun ih =>
    obtain ⟨order, hv, hplaced⟩ := ih h
    obtain ⟨hfirst, hchildren⟩ := WriteTask.component_of_run hrun
    rw [List.map_append, hchildren] at hv
    refine ⟨task.component :: order, .cons hv, ?_⟩
    rw [hplaced, add, List.map_append, List.map_singleton, hfirst, List.append_assoc,
      List.singleton_append]
  | case3 => cases h

/-- What is visited is determined by what is pending. -/
theorem Graph.Visits.unique {g : Graph} {pending order order' : List ComponentId}
    (h : Visits g pending order) (h' : Visits g pending order') : order = order' := by
  rw [← h.walk_eq (Nat.le_max_left _ order'.length), h'.walk_eq (Nat.le_max_right order.length _)]

/-- A tree that was written has the components of the subtree placed in their order. -/
theorem Exporter.placements_of_writeTree {x x' : Exporter} (hforest : x.graph.Forest)
    {root : ComponentId} (hroot : root < x.graph.size) {w w' : Window} {tree : TreeLayout}
    (h : x.writeTree root w = (.ok tree, x', w')) :
    tree.placements.map (·.component) = x.graph.subtree root := by
  unfold writeTree writing enter at h
  by_cases hphase : x.phase = .sizing
  · simp only [if_pos hphase] at h
    split at h
    next layout pass hrun =>
      cases h
      obtain ⟨order, hv, hplaced⟩ := TreeLayout.visits_of_runTasks hrun
      rw [hplaced, hv.unique (hforest.visits_subtree hroot)]
      rfl
    next => cases h
  · simp only [if_neg hphase] at h
    cases h

/-- **Subtrees and depths**, in a graph that was made by any edits.  Listing the subtree of a component
comes to an end, and gives the pre-order of the tree, of which there is only one.  No component is listed
twice, and listed are the component and those that have it among their ancestors.  The ancestors of a
component are all of its lineage, and their number is its depth, one more than that of its parent.  An
export that writes the subtree, in whichever phase and whatever the rules and the window, places the
components in this order. -/
theorem Graph.subtree_eq_preorder (list : List Edit) {c : ComponentId}
    (hc : c < (Graph.empty.edits list).size) :
    let g := Graph.empty.edits list
    Visits g [c] (g.subtree c) ∧
    (g.DepthFirst g.subtree ∧ ∀ order, g.DepthFirst order → order c = g.subtree c) ∧
    (g.subtree c).Nodup ∧
    (∀ d, d ∈ g.subtree c ↔ d = c ∨ c ∈ g.ancestors d) ∧
    (∀ d, Lineage g d (g.ancestors d)) ∧
    g.depth c = (g.ancestors c).length ∧
    (∀ d, g.parent? d = some c → g.depth d = g.depth c + 1) ∧
    ∀ registry phase calls w tree x w',
      Exporter.writeTree { graph := g, registry, phase, calls } c w = (.ok tree, x, w') →
      tree.placements.map (·.component) = g.subtree c := by
  intro g
  have h : g.Forest := (WellFormed.empty.edits list).toForest
  refine ⟨h.visits_subtree hc, ⟨h.depthFirst_subtree, fun _ horder =>
    h.eq_subtree_of_depthFirst horder hc⟩, h.nodup_subtree hc, h.mem_subtree_iff hc,
    h.lineage_ancestors, rfl, fun _ => h.depth_of_parent?, ?_⟩
  intro registry phase calls w tree x w' hwrite
  exact Exporter.placements_of_writeTree h hc hwrite

/-- A node with two cores, the first of which has a thread that came last. -/
theorem Graph.subtree_eq_preorder_node :
    let g := Graph.empty.edits
      [.addComponent none { id := 0, details := .node },
        .addComponent (some 0) { id := 1, details := .core },
        .addComponent (some 0) { id := 2, details := .core },
        .addComponent (some 1) { id := 3, details := .thread }]
    0 < g.size ∧ g.subtree 0 = [0, 1, 3, 2] ∧ g.ancestors 3 = [1, 0] ∧ g.depth 3 = 2 ∧
      ∃ tree x w', Exporter.writeTree { graph := g, phase := .sizing } 0
          { access := .write, bytes := Bytes.zeros 200 } = (.ok tree, x, w') ∧
        tree.placements.map (·.component) = [0, 1, 3, 2] := by
  intro g
  have hforest : g.Forest := (WellFormed.empty.edits _).toForest
  have hroot : 0 < g.size := show 0 < 4 by decide
  obtain ⟨-, -, -, -, -, -, -, hplaced⟩ := Graph.subtree_eq_preorder
    [.addComponent none { id := 0, details := .node },
      .addComponent (some 0) { id := 1, details := .core },
      .addComponent (some 0) { id := 2, details := .core },
      .addComponent (some 1) { id := 3, details := .thread }] hroot
  have hsubtree : g.subtree 0 = [0, 1, 3, 2] := by decide +kernel
  let w : Window := { access := .write, bytes := Bytes.zeros 200 }
  have hw : w.Writable := ⟨rfl, Nat.zero_le _⟩
  have hstorable : Block.Storable (g.blocks {} (g.subtree 0) ∅).1 := by
    unfold Block.Storable
    decide +kernel
  have htree := (hforest.settles_writeTree {} hroot hw ∅).ok hstorable (by decide +kernel)
  have hwrite : ∃ tree x w', Exporter.writeTree { graph := g, phase := .sizing } 0 w =
      (.ok tree, x, w') := by
    simp only [Exporter.writeTree, Exporter.writing, Exporter.enter, if_true, htree]
    exact ⟨_, _, _, rfl⟩
  obtain ⟨tree, x, w', hwrite⟩ := hwrite
  have hancestors : g.ancestors 3 = [1, 0] := by
    rw [hforest.ancestors_of_parent? (p := 1) rfl, hforest.ancestors_of_parent? (p := 0) rfl,
      ancestors_of_root rfl]
  refine ⟨hroot, hsubtree, hancestors, by rw [depth, hancestors]; rfl, tree, x, w', hwrite, ?_⟩
  rw [hplaced {} .sizing ∅ w tree x w' hwrite, ← hsubtree]

end HardwareMap
