import HardwareMap.Proofs.Topology.Grafting
import HardwareMap.Proofs.Topology.Incidence

/-!
# Deleting a path

What deleting a path leaves behind is the graph with the path taken out of every list and its slot
emptied (`Graph.Without`), whether the path was there or not.  A graph is determined by its views, so
deleting what was just added leads back to where one was, but for the slot, and deletions may be done in
either order.  The slot stays for good, which is why no handle is given out twice
(`Graph.newPaths_eq_range`).
-/

namespace HardwareMap

namespace Graph

/-- A graph is its components, its roots and its paths. -/
theorem eq_of_member? {g g' : Graph} (hmember : ∀ c, g'.member? c = g.member? c)
    (hroots : g'.roots = g.roots) (hpaths : g'.paths = g.paths)
    (hlive : g'.livePaths = g.livePaths) : g' = g := by
  have hmembers : g'.members = g.members := Array.ext_getElem? hmember
  cases g
  cases g'
  simp_all

/-- The graph without a path: its slot is empty, it is in no list any more, and all else is as it was. -/
structure Without (g : Graph) (id : PathId) (g' : Graph) : Prop extends SameForest g g' where
  content?_eq : ∀ c, g'.content? c = g.content? c
  pathsOf_eq : ∀ c direction, g'.pathsOf c direction = (g.pathsOf c direction).filter (· != id)
  paths_eq : g'.paths = g.paths.modify id fun _ => none

theorem Without.path?_eq {g g' : Graph} {id : PathId} (h : g.Without id g') (other : PathId) :
    g'.path? other = if id = other then none else g.path? other := by
  rw [path?, h.paths_eq, path?_modify _ _ _ _ rfl]

/-! ## What deleting leaves behind -/

theorem filter_ne_of_notMem {l : List PathId} {id : PathId} (h : id ∉ l) :
    l.filter (· != id) = l :=
  List.filter_eq_self.2 fun _ hother => bne_iff_ne.2 fun heq => h (heq ▸ hother)

/-- Nothing is left to remove from a list that does not mention the path. -/
theorem filter_ne_of_count {l : List PathId} {id : PathId} {n : Nat} (h : l.count id = n) :
    (if n = 0 then l else l.filter (· != id)) = l.filter (· != id) := by
  split
  · next hzero => rw [filter_ne_of_notMem (List.count_eq_zero.1 (h.trans hzero))]
  · rfl

/-- What is listed in both directions is left by what is left of each. -/
theorem filter_any (out inc : List PathId) (id : PathId) :
    out.filter (· != id) ++ (inc.filter (· != id)).filter (· ∉ out.filter (· != id)) =
      (out ++ inc.filter (· ∉ out)).filter (· != id) := by
  rw [List.filter_append, List.filter_filter, List.filter_filter]
  refine congrArg (out.filter (· != id) ++ ·) (List.filter_congr fun other _ => ?_)
  by_cases h : other = id <;> simp [h, Bool.and_comm]

namespace Registered

variable {g g' : Graph} (h : g.Registered)

include h

/-- A list without the path is left wherever the path is registered or not. -/
theorem pathsOf_parted {id : PathId} {path : DataPath} (hpath : g.path? id = some path)
    (hpart : Parted g id path g') (c : ComponentId) (direction : Direction) :
    g'.pathsOf c direction = (g.pathsOf c direction).filter (· != id) := by
  obtain ⟨hcountOut, hcountIn⟩ := h.counts_of_path? c hpath
  have hout : g'.outgoing c = (g.outgoing c).filter (· != id) := by
    rw [hpart.outgoing_eq, filter_ne_of_count hcountOut]
  have hinc : g'.incoming c = (g.incoming c).filter (· != id) := by
    rw [hpart.incoming_eq, filter_ne_of_count hcountIn]
  cases direction with
  | outgoing => exact hout
  | incoming => exact hinc
  | any => rw [(h.parted hpath hpart).pathsOf_any_eq, h.pathsOf_any_eq, hout, hinc, filter_any]

/-- A path that is not there is listed nowhere. -/
theorem notMem_pathsOf {id : PathId} (hnone : g.path? id = none) (c : ComponentId)
    (direction : Direction) : id ∉ g.pathsOf c direction := by
  have hno : ∀ {P : DataPath → Prop}, ¬∃ p, g.path? id = some p ∧ P p := by
    rintro P ⟨p, hp, -⟩
    rw [hnone] at hp
    cases hp
  cases direction with
  | outgoing => exact fun hid => hno (h.mem_outgoing.1 hid)
  | incoming => exact fun hid => hno (h.mem_incoming.1 hid)
  | any => exact fun hid => hno (h.mem_pathsOf_any.1 hid)

/-- Whether the path was there or not, afterwards it is gone and all else is as it was. -/
theorem without_deletePath (id : PathId) : g.Without id (g.deletePath id).2 := by
  rcases deletePath_cases g id with ⟨hnone, heq⟩ | ⟨path, g', hpath, heq, hpart⟩
  · rw [heq]
    exact {
      toSameForest := .refl g
      content?_eq := fun _ => rfl
      pathsOf_eq := fun c direction =>
        (filter_ne_of_notMem (h.notMem_pathsOf hnone c direction)).symm
      paths_eq := (modify_none_of_path?_eq_none hnone).symm }
  · rw [heq]
    exact ⟨hpart.toSameForest, hpart.content?_eq, h.pathsOf_parted hpath hpart, hpart.paths_eq⟩

/-- A live path is returned by its deletion, and there is one live path less. -/
theorem deletePath_eq_ok {id : PathId} {path : DataPath} (hpath : g.path? id = some path) :
    ∃ g', g.deletePath id = (.ok path, g') ∧ g'.livePaths + 1 = g.livePaths := by
  rcases deletePath_cases g id with ⟨hnone, -⟩ | ⟨_, g', hpath', heq, hpart⟩
  · rw [hnone] at hpath
    cases hpath
  · rw [hpath] at hpath'
    cases hpath'
    have hpos : 0 < g.livePaths := by
      rw [h.livePaths_eq]
      exact List.length_pos_of_mem (mem_livePathList.2 hpath)
    refine ⟨g', heq, ?_⟩
    rw [hpart.livePaths_eq, Nat.sub_add_cancel hpos]

end Registered

/-! ## Deleting what was added -/

theorem modify_push_size {α : Type} (slots : Array α) (first last : α) :
    ((slots.push first).modify slots.size fun _ => last) = slots.push last := by
  apply Array.ext_getElem?
  intro i
  rw [Array.getElem?_modify, Array.getElem?_push, Array.getElem?_push]
  by_cases hi : i = slots.size
  · rw [if_pos hi.symm, if_pos hi, if_pos hi, Option.map_some]
  · rw [if_neg (Ne.symm hi), if_neg hi, if_neg hi]

theorem filter_append_replicate {l : List PathId} {new : PathId} (h : new ∉ l) (n : Nat) :
    (l ++ List.replicate n new).filter (· != new) = l := by
  rw [List.filter_append, filter_ne_of_notMem h, List.filter_replicate_of_neg (by simp),
    List.append_nil]

/-- A path that was just added leaves nothing but its slot behind when it is deleted. -/
theorem WellFormed.deletePath_joined {g g₁ : Graph} (h : g.WellFormed) {path : DataPath}
    (hjoin : Joined g path g₁) (hsource : path.source < g.size) (htarget : path.target < g.size) :
    g₁.deletePath g.paths.size = (.ok path, { g with paths := g.paths.push none }) := by
  have h₁ : g₁.Registered := h.toRegistered.joined hjoin hsource htarget
  have hpath : g₁.path? g.paths.size = some path := by
    rw [Registered.path?_joined hjoin, if_pos rfl]
  have hnone : g.path? g.paths.size = none := path?_eq_none_of_le (Nat.le_refl _)
  obtain ⟨g₂, heq, hlive⟩ := h₁.deletePath_eq_ok hpath
  have hwithout := h₁.without_deletePath g.paths.size
  rw [heq] at hwithout ⊢
  refine congrArg (Prod.mk _) (eq_of_member? (fun c => ?_) ?_ ?_ ?_)
  · refine member?_congr (g := g) ?_ ?_ ?_ ?_ ?_
    · rw [hwithout.content?_eq, hjoin.content?_eq]
    · rw [hwithout.parent?_eq, hjoin.parent?_eq]
    · rw [hwithout.children_eq, hjoin.children_eq]
    · refine (hwithout.pathsOf_eq c .outgoing).trans ?_
      rw [← outgoing, hjoin.outgoing_eq,
        filter_append_replicate (h.toRegistered.notMem_pathsOf hnone c .outgoing)]
    · refine (hwithout.pathsOf_eq c .incoming).trans ?_
      rw [← incoming, hjoin.incoming_eq,
        filter_append_replicate (h.toRegistered.notMem_pathsOf hnone c .incoming)]
  · rw [hwithout.roots_eq, hjoin.roots_eq]
  · rw [hwithout.paths_eq, hjoin.paths_eq, modify_push_size]
  · rw [hjoin.livePaths_eq] at hlive
    exact Nat.succ.inj hlive

/-! ## Deleting in either order -/

theorem modify_comm {α : Type} (slots : Array α) (i j : Nat) (a : α) :
    ((slots.modify i fun _ => a).modify j fun _ => a) =
      (slots.modify j fun _ => a).modify i fun _ => a := by
  apply Array.ext_getElem?
  intro k
  simp only [Array.getElem?_modify]
  by_cases hi : i = k <;> by_cases hj : j = k <;> simp [hi, hj]

theorem WellFormed.deletePath_comm {g : Graph} (h : g.WellFormed) (id other : PathId) :
    ((g.deletePath id).2.deletePath other).2 = ((g.deletePath other).2.deletePath id).2 := by
  have hfirst := h.toRegistered.without_deletePath id
  have hfirst' := h.toRegistered.without_deletePath other
  have h₁ := h.deletePath id
  have h₁' := h.deletePath other
  have hsecond := h₁.toRegistered.without_deletePath other
  have hsecond' := h₁'.toRegistered.without_deletePath id
  have hpaths : ((g.deletePath id).2.deletePath other).2.paths =
      ((g.deletePath other).2.deletePath id).2.paths := by
    rw [hsecond.paths_eq, hfirst.paths_eq, hsecond'.paths_eq, hfirst'.paths_eq, modify_comm]
  have hlists : ∀ c direction, ((g.deletePath id).2.deletePath other).2.pathsOf c direction =
      ((g.deletePath other).2.deletePath id).2.pathsOf c direction := by
    intro c direction
    rw [hsecond.pathsOf_eq, hfirst.pathsOf_eq, hsecond'.pathsOf_eq, hfirst'.pathsOf_eq,
      List.filter_filter, List.filter_filter]
    exact List.filter_congr fun _ _ => Bool.and_comm _ _
  refine eq_of_member? (fun c => ?_) ?_ hpaths ?_
  · refine member?_congr ?_ ?_ ?_ (hlists c .outgoing) (hlists c .incoming)
    · rw [hsecond.content?_eq, hfirst.content?_eq, hsecond'.content?_eq, hfirst'.content?_eq]
    · rw [hsecond.parent?_eq, hfirst.parent?_eq, hsecond'.parent?_eq, hfirst'.parent?_eq]
    · rw [hsecond.children_eq, hfirst.children_eq, hsecond'.children_eq, hfirst'.children_eq]
  · rw [hsecond.roots_eq, hfirst.roots_eq, hsecond'.roots_eq, hfirst'.roots_eq]
  · rw [(h₁.deletePath other).livePaths_eq, (h₁'.deletePath id).livePaths_eq,
      length_livePathList, length_livePathList, hpaths]

end Graph

/-! ## Handles -/

/-- The handle that an edit gives to a path. -/
def Edit.newPath? (g : Graph) : Edit → Option PathId
  | addPath source target orientation type bandwidth latency =>
    (g.addPath source target orientation type { bandwidth, latency }).1.toOption
  | connect source target orientation => (g.connect source target orientation).1.toOption
  | addComponent .. | deletePath _ | writeComponent .. | writePath .. => none

namespace Graph

/-- The handles that edits give to paths, one after the other. -/
def newPaths (g : Graph) : List Edit → List PathId
  | [] => []
  | e :: rest => (e.newPath? g).toList ++ (e.run g).2.newPaths rest

theorem newPath?_addPath (g : Graph) (source target : ComponentId) (orientation : Orientation)
    (type : PathType) (notes : Annotations) :
    let answer := g.addPath source target orientation type notes
    List.range g.paths.size ++ answer.1.toOption.toList = List.range answer.2.paths.size := by
  rcases addPath_cases g source target orientation type notes with
    ⟨c, -, -, heq⟩ | ⟨g', heq, -, -, hjoin⟩
  · rw [heq]
    exact List.append_nil _
  · rw [heq]
    show List.range g.paths.size ++ [g.paths.size] = List.range g'.paths.size
    rw [hjoin.paths_eq, Array.size_push, List.range_succ]

/-- A path gets the number of the slots there are, and slots are never given back. -/
theorem newPath?_run (g : Graph) (e : Edit) :
    List.range g.paths.size ++ (e.newPath? g).toList = List.range (e.run g).2.paths.size := by
  have keep : ∀ g' : Graph, g'.paths.size = g.paths.size →
      List.range g.paths.size ++ [] = List.range g'.paths.size := fun g' h => by
    rw [h, List.append_nil]
  cases e with
  | addPath source target orientation type bandwidth latency => exact newPath?_addPath g ..
  | connect source target orientation => exact newPath?_addPath g ..
  | addComponent parent c =>
    refine keep _ ?_
    show (g.addComponent parent c).2.paths.size = _
    rcases addComponent_cases g parent c with ⟨p, -, -, heq⟩ | ⟨g', heq, hadd, -⟩
    · rw [heq]
    · rw [heq, hadd.paths_eq]
  | deletePath id =>
    refine keep _ ?_
    show (g.deletePath id).2.paths.size = _
    rcases deletePath_cases g id with ⟨-, heq⟩ | ⟨path, g', -, heq, hpart⟩
    · rw [heq]
    · rw [heq, hpart.paths_eq, Array.size_modify]
  | writeComponent id write => exact keep _ rfl
  | writePath id write => exact keep _ Array.size_modify

theorem newPaths_eq_range (g : Graph) (list : List Edit) :
    List.range g.paths.size ++ g.newPaths list = List.range (g.edits list).paths.size := by
  induction list generalizing g with
  | nil => exact List.append_nil _
  | cons e rest ih =>
    rw [newPaths, ← List.append_assoc, newPath?_run, ih]
    rfl

/-- **Deleting a path**, in a graph that was made by any edits.  After a path was added, deleting it
returns it and leaves the graph as it was before, with one empty slot more.  Deleting a live path returns
it and leaves the graph without it: it is taken out of every list, and nothing else changes.  Deletions
may be done in either order.  The handles that were given to paths are the numbers from zero on, so none
was given twice. -/
theorem deletePath_exact (list : List Edit) :
    let g := Graph.empty.edits list
    (∀ source target orientation type notes id g₁,
      g.addPath source target orientation type notes = (.ok id, g₁) →
      g₁.deletePath id = (.ok { notes with source, target, orientation, type },
        { g with paths := g.paths.push none })) ∧
    (∀ id path, g.path? id = some path → ∃ g₁, g.deletePath id = (.ok path, g₁) ∧
      g.Without id g₁ ∧ g₁.livePaths + 1 = g.livePaths) ∧
    (∀ id other, ((g.deletePath id).2.deletePath other).2 =
      ((g.deletePath other).2.deletePath id).2) ∧
    Graph.empty.newPaths list = List.range g.paths.size ∧ (Graph.empty.newPaths list).Nodup := by
  intro g
  have hwf : g.WellFormed := WellFormed.empty.edits list
  have hhandles : Graph.empty.newPaths list = List.range g.paths.size :=
    newPaths_eq_range Graph.empty list
  refine ⟨?_, ?_, hwf.deletePath_comm, hhandles, ?_⟩
  · intro source target orientation type notes id g₁ hadd
    rcases addPath_cases g source target orientation type notes with
      ⟨c, -, -, heq⟩ | ⟨g', heq, hsource, htarget, hjoin⟩
    · rw [heq] at hadd
      cases hadd
    · rw [heq] at hadd
      cases hadd
      exact hwf.deletePath_joined hjoin hsource htarget
  · intro id path hpath
    obtain ⟨g₁, heq, hlive⟩ := hwf.toRegistered.deletePath_eq_ok hpath
    have hwithout := hwf.toRegistered.without_deletePath id
    rw [heq] at hwithout
    exact ⟨g₁, heq, hwithout, hlive⟩
  · rw [hhandles]
    exact List.nodup_range

/-- A node has a path to itself both ways, which is listed twice in each direction, and one there and
back.  Another path is added and deleted at once, or the first one is deleted. -/
theorem deletePath_exact_loop :
    let g := Graph.empty.edits
      [.addComponent none { id := 0, details := .node }, .connect 0 0 .bidirectional,
        .connect 0 0 .oriented]
    g.pathsOf 0 .any = [0, 0, 1] ∧
      (∃ g₁, g.addPath 0 0 .bidirectional .none {} = (.ok 2, g₁) ∧ g₁.outgoing 0 = [0, 0, 1, 2, 2] ∧
        (g₁.deletePath 2).2 = { g with paths := g.paths.push none }) ∧
      ∃ path g₁, g.deletePath 0 = (.ok path, g₁) ∧ g₁.outgoing 0 = [1] ∧ g₁.incoming 0 = [1] ∧
        g₁.livePaths = 1 := by
  intro g
  obtain ⟨hundo, hdelete, -⟩ := deletePath_exact
    [.addComponent none { id := 0, details := .node }, .connect 0 0 .bidirectional,
      .connect 0 0 .oriented]
  refine ⟨by decide +kernel, ⟨_, rfl, by decide +kernel, ?_⟩, ?_⟩
  · exact congrArg Prod.snd (hundo 0 0 .bidirectional .none {} 2 _ rfl)
  · obtain ⟨g₁, heq, hwithout, hlive⟩ := hdelete 0 _ rfl
    exact ⟨_, g₁, heq, hwithout.pathsOf_eq 0 .outgoing, hwithout.pathsOf_eq 0 .incoming,
      Nat.succ.inj hlive⟩

end Graph

end HardwareMap
