import HardwareMap.Proofs.Topology.Edit

/-!
# The invariant of graphs

A graph that comes from the empty one by edits is well formed (`Graph.wellFormed_of_edits`): its
components form a forest in which a parent is older than its children, and every list of paths at
a component mentions exactly the live paths that belong there, as often as they belong there and in
the order of their handles.
-/

namespace HardwareMap

/-- A call that changes a graph, or a write to what anyone may write. -/
inductive Edit where
  | addComponent (parent : Option ComponentId) (c : Component)
  | addPath (source target : ComponentId) (orientation : Orientation) (type : PathType)
      (bandwidth latency : Binary64)
  | connect (source target : ComponentId) (orientation : Orientation)
  | deletePath (id : PathId)
  | writeComponent (id : ComponentId) (write : Component → Component)
  | writePath (id : PathId) (write : Annotations → Annotations)

namespace Edit

/-- Whether an edit succeeds, and the graph that it leaves behind. -/
def run (g : Graph) : Edit → Except Error Unit × Graph
  | addComponent parent c =>
    let (answer, g) := g.addComponent parent c
    (discard answer, g)
  | addPath source target orientation type bandwidth latency =>
    let (answer, g) := g.addPath source target orientation type { bandwidth, latency }
    (discard answer, g)
  | connect source target orientation =>
    let (answer, g) := g.connect source target orientation
    (discard answer, g)
  | deletePath id =>
    let (answer, g) := g.deletePath id
    (discard answer, g)
  | writeComponent id write => (.ok (), g.modifyComponent id write)
  | writePath id write => (.ok (), g.modifyPath id write)

end Edit

namespace Graph

/-- The graph after a list of edits, whether they succeed or fail. -/
def edits (g : Graph) (list : List Edit) : Graph := list.foldl (fun g e => (e.run g).2) g

/-- The number of times that a path is to be listed as outgoing at a component. -/
def outgoingCount (g : Graph) (c : ComponentId) (id : PathId) : Nat :=
  match g.path? id with
  | some path => path.outgoingAt c
  | none => 0

/-- The number of times that a path is to be listed as incoming at a component. -/
def incomingCount (g : Graph) (c : ComponentId) (id : PathId) : Nat :=
  match g.path? id with
  | some path => path.incomingAt c
  | none => 0

/-- The components form a forest, and parents are older than their children. -/
structure Forest (g : Graph) : Prop where
  parent_lt : ∀ c p, g.parent? c = some p → p < c
  /-- A component is listed once among the children of its parent, and nowhere else. -/
  count_children : ∀ p c, (g.children p).count c = if g.parent? c = some p then 1 else 0
  children_ascending : ∀ p, (g.children p).Pairwise (· < ·)
  mem_roots : ∀ c, c ∈ g.roots ↔ c < g.size ∧ g.parent? c = none
  roots_ascending : g.roots.Pairwise (· < ·)

/-- Every live path is listed at its ends as its orientation asks, and nothing else is listed. -/
structure Registered (g : Graph) : Prop where
  count_outgoing : ∀ c id, (g.outgoing c).count id = g.outgoingCount c id
  count_incoming : ∀ c id, (g.incoming c).count id = g.incomingCount c id
  outgoing_ascending : ∀ c, (g.outgoing c).Pairwise (· ≤ ·)
  incoming_ascending : ∀ c, (g.incoming c).Pairwise (· ≤ ·)
  ends_lt : ∀ id path, g.path? id = some path → path.source < g.size ∧ path.target < g.size
  livePaths_eq : g.livePaths = g.livePathList.length

/-- The invariant of graphs. -/
structure WellFormed (g : Graph) : Prop extends Forest g, Registered g

/-! ## The forest -/

namespace Forest

variable {g g' : Graph}

theorem congr (h : Forest g) (hsame : SameForest g g') : Forest g' where
  parent_lt c p hp := h.parent_lt c p (by rw [← hsame.parent?_eq]; exact hp)
  count_children p c := by rw [hsame.children_eq, hsame.parent?_eq, h.count_children]
  children_ascending p := by
    rw [hsame.children_eq]
    exact h.children_ascending p
  mem_roots c := by rw [hsame.roots_eq, hsame.size_eq, hsame.parent?_eq, h.mem_roots]
  roots_ascending := by
    rw [hsame.roots_eq]
    exact h.roots_ascending

theorem mem_children (h : Forest g) {p c : ComponentId} :
    c ∈ g.children p ↔ g.parent? c = some p := by
  rw [← List.count_pos_iff, h.count_children]
  split <;> simp_all

theorem lt_of_mem_children (h : Forest g) {p c : ComponentId} (hc : c ∈ g.children p) :
    p < c ∧ c < g.size :=
  ⟨h.parent_lt c p (h.mem_children.1 hc), lt_of_parent? (h.mem_children.1 hc)⟩

theorem parent?_size (g : Graph) : g.parent? g.size = none := by
  cases hp : g.parent? g.size with
  | none => rfl
  | some p => exact absurd (lt_of_parent? hp) (Nat.lt_irrefl _)

/-- The newest component comes behind all others of a list. -/
theorem ascending_append {l : List ComponentId} {n : Nat} (hl : l.Pairwise (· < ·))
    (hlt : ∀ c ∈ l, c < n) (p : Prop) [Decidable p] :
    (l ++ if p then [n] else []).Pairwise (· < ·) := by
  split
  · refine List.pairwise_append.2 ⟨hl, List.pairwise_singleton _ _, fun c hc d hd => ?_⟩
    rw [List.mem_singleton.1 hd]
    exact hlt c hc
  · rw [List.append_nil]
    exact hl

theorem added (h : Forest g) {parent : Option ComponentId} {c : Component}
    (hadd : Added g parent c g') (hparent : ∀ p, parent = some p → p < g.size) : Forest g' where
  parent_lt id p hp := by
    rw [hadd.parent?_eq] at hp
    split at hp
    · next hid => rw [hid]; exact hparent p hp
    · exact h.parent_lt id p hp
  count_children p id := by
    rw [hadd.children_eq, hadd.parent?_eq, List.count_append, h.count_children]
    by_cases hid : id = g.size
    · subst hid
      rw [parent?_size, if_pos rfl]
      by_cases hp : parent = some p <;> simp [hp]
    · have hnot : ([g.size] : List Nat).count id = 0 :=
        List.count_eq_zero.2 fun hmem => hid (List.mem_singleton.1 hmem)
      rw [if_neg hid]
      by_cases hp : parent = some p
      · rw [if_pos hp, hnot, Nat.add_zero]
      · rw [if_neg hp, List.count_nil, Nat.add_zero]
  children_ascending p := by
    rw [hadd.children_eq]
    exact ascending_append (h.children_ascending p) (fun c hc => (h.lt_of_mem_children hc).2) _
  mem_roots id := by
    rw [hadd.roots_eq, List.mem_append, h.mem_roots, hadd.size_eq, hadd.parent?_eq]
    by_cases hid : id = g.size
    · subst hid
      by_cases hp : parent = none <;> simp [hp]
    · have hlt : id < g.size + 1 ↔ id < g.size := by
        rw [Nat.lt_succ_iff_lt_or_eq]
        exact ⟨fun h => h.resolve_right hid, .inl⟩
      rw [if_neg hid, hlt]
      by_cases hp : parent = none <;> simp [hp, hid]
  roots_ascending := by
    rw [hadd.roots_eq]
    exact ascending_append h.roots_ascending (fun c hc => ((h.mem_roots c).1 hc).1) _

end Forest

/-! ## The registrations -/

theorem length_livePathList (g : Graph) :
    g.livePathList.length = g.paths.toList.countP Option.isSome := by
  have go : ∀ (slots : List (Option DataPath)) (n : Nat),
      ((slots.zipIdx n).filterMap fun entry => entry.1.map (entry.2, ·)).length =
        slots.countP Option.isSome := by
    intro slots
    induction slots with
    | nil => intro n; rfl
    | cons slot rest ih =>
      intro n
      cases slot with
      | none => simpa using ih (n + 1)
      | some path => simpa using ih (n + 1)
  exact go g.paths.toList 0

theorem countP_isSome_modify (slots : List (Option DataPath)) (id : PathId)
    (f : DataPath → DataPath) :
    (slots.modify id (Option.map f)).countP Option.isSome = slots.countP Option.isSome := by
  induction slots generalizing id with
  | nil => rw [List.modify_nil]
  | cons slot rest ih =>
    cases id with
    | zero => cases slot <;> rfl
    | succ id => rw [List.modify_succ_cons, List.countP_cons, List.countP_cons, ih]

theorem path?_eq_none_of_le {g : Graph} {id : PathId} (h : g.paths.size ≤ id) :
    g.path? id = none := by
  rw [path?, Array.getElem?_eq_none h]
  rfl

theorem lt_of_path? {g : Graph} {id : PathId} {path : DataPath} (h : g.path? id = some path) :
    id < g.paths.size := by
  rw [← Nat.not_le]
  intro hle
  rw [path?_eq_none_of_le hle] at h
  cases h

namespace Registered

variable {g g' : Graph}

/-- Only live paths are listed. -/
theorem path?_of_mem_outgoing (h : Registered g) {c : ComponentId} {id : PathId}
    (hid : id ∈ g.outgoing c) : ∃ path, g.path? id = some path ∧ 0 < path.outgoingAt c := by
  have hcount := List.count_pos_iff.2 hid
  rw [h.count_outgoing, outgoingCount] at hcount
  cases hp : g.path? id with
  | none =>
    rw [hp] at hcount
    exact absurd hcount (Nat.lt_irrefl 0)
  | some path =>
    rw [hp] at hcount
    exact ⟨path, rfl, hcount⟩

theorem path?_of_mem_incoming (h : Registered g) {c : ComponentId} {id : PathId}
    (hid : id ∈ g.incoming c) : ∃ path, g.path? id = some path ∧ 0 < path.incomingAt c := by
  have hcount := List.count_pos_iff.2 hid
  rw [h.count_incoming, incomingCount] at hcount
  cases hp : g.path? id with
  | none =>
    rw [hp] at hcount
    exact absurd hcount (Nat.lt_irrefl 0)
  | some path =>
    rw [hp] at hcount
    exact ⟨path, rfl, hcount⟩

/-- Neither more components nor other notes on the paths change what is to be listed. -/
theorem congr (h : Registered g) {f : PathId → DataPath → DataPath}
    (hpath : ∀ id, g'.path? id = (g.path? id).map (f id))
    (hsource : ∀ id p, (f id p).source = p.source) (htarget : ∀ id p, (f id p).target = p.target)
    (horientation : ∀ id p, (f id p).orientation = p.orientation)
    (hout : ∀ c, g'.outgoing c = g.outgoing c) (hinc : ∀ c, g'.incoming c = g.incoming c)
    (hsize : g.size ≤ g'.size) (hlive : g'.livePaths = g.livePaths)
    (hlength : g'.livePathList.length = g.livePathList.length) : Registered g' where
  count_outgoing c id := by
    rw [hout, h.count_outgoing, outgoingCount, outgoingCount, hpath]
    cases g.path? id with
    | none => rfl
    | some p => simp only [Option.map_some, DataPath.outgoingAt, hsource, htarget, horientation]
  count_incoming c id := by
    rw [hinc, h.count_incoming, incomingCount, incomingCount, hpath]
    cases g.path? id with
    | none => rfl
    | some p => simp only [Option.map_some, DataPath.incomingAt, hsource, htarget, horientation]
  outgoing_ascending c := by
    rw [hout]
    exact h.outgoing_ascending c
  incoming_ascending c := by
    rw [hinc]
    exact h.incoming_ascending c
  ends_lt id path hp := by
    rw [hpath] at hp
    obtain ⟨p, hold, rfl⟩ := Option.map_eq_some_iff.1 hp
    rw [hsource, htarget]
    have := h.ends_lt id p hold
    exact ⟨Nat.lt_of_lt_of_le this.1 hsize, Nat.lt_of_lt_of_le this.2 hsize⟩
  livePaths_eq := by rw [hlive, hlength, h.livePaths_eq]

theorem added (h : Registered g) {parent : Option ComponentId} {c : Component}
    (hadd : Added g parent c g') : Registered g' :=
  h.congr (f := fun _ p => p) (fun id => by rw [path?, hadd.paths_eq, Option.map_id']; rfl)
    (fun _ _ => rfl) (fun _ _ => rfl) (fun _ _ => rfl)
    (fun c => hadd.pathsOf_eq c _) (fun c => hadd.pathsOf_eq c _)
    (by rw [hadd.size_eq]; exact Nat.le_succ _) hadd.livePaths_eq
    (by rw [livePathList, hadd.paths_eq]; rfl)

/-! ### A path more -/

theorem path?_joined {path : DataPath} (hjoin : Joined g path g') (id : PathId) :
    g'.path? id = if id = g.paths.size then some path else g.path? id := by
  rw [path?, hjoin.paths_eq, path?_push]

/-- The list of a component to which the newest path is added as often as it belongs there. -/
theorem count_append_replicate {l : List PathId} {id new n : Nat}
    (hnew : l.count new = 0) :
    (l ++ List.replicate n new).count id = if id = new then n else l.count id := by
  rw [List.count_append, List.count_replicate]
  by_cases h : id = new
  · subst h
    simp [hnew]
  · have hne : new ≠ id := Ne.symm h
    simp [h, hne]

theorem ascending_append_replicate {l : List PathId} {new : Nat} (n : Nat)
    (hl : l.Pairwise (· ≤ ·)) (hlt : ∀ id ∈ l, id < new) :
    (l ++ List.replicate n new).Pairwise (· ≤ ·) := by
  refine List.pairwise_append.2 ⟨hl, List.pairwise_replicate.2 (.inr (Nat.le_refl _)), ?_⟩
  intro a ha b hb
  rw [List.eq_of_mem_replicate hb]
  exact Nat.le_of_lt (hlt a ha)

theorem joined (h : Registered g) {path : DataPath} (hjoin : Joined g path g')
    (hsource : path.source < g.size) (htarget : path.target < g.size) : Registered g' where
  count_outgoing c id := by
    have hnew : (g.outgoing c).count g.paths.size = 0 := by
      rw [h.count_outgoing, outgoingCount, path?_eq_none_of_le (Nat.le_refl _)]
    rw [hjoin.outgoing_eq, count_append_replicate hnew, h.count_outgoing, outgoingCount,
      outgoingCount, path?_joined hjoin]
    by_cases hid : id = g.paths.size <;> simp only [hid, if_true, if_false]
  count_incoming c id := by
    have hnew : (g.incoming c).count g.paths.size = 0 := by
      rw [h.count_incoming, incomingCount, path?_eq_none_of_le (Nat.le_refl _)]
    rw [hjoin.incoming_eq, count_append_replicate hnew, h.count_incoming, incomingCount,
      incomingCount, path?_joined hjoin]
    by_cases hid : id = g.paths.size <;> simp only [hid, if_true, if_false]
  outgoing_ascending c := by
    rw [hjoin.outgoing_eq]
    refine ascending_append_replicate _ (h.outgoing_ascending c) fun id hid => ?_
    obtain ⟨p, hp, -⟩ := h.path?_of_mem_outgoing hid
    exact lt_of_path? hp
  incoming_ascending c := by
    rw [hjoin.incoming_eq]
    refine ascending_append_replicate _ (h.incoming_ascending c) fun id hid => ?_
    obtain ⟨p, hp, -⟩ := h.path?_of_mem_incoming hid
    exact lt_of_path? hp
  ends_lt id p hp := by
    rw [path?_joined hjoin] at hp
    rw [hjoin.size_eq]
    split at hp
    · cases hp
      exact ⟨hsource, htarget⟩
    · exact h.ends_lt id p hp
  livePaths_eq := by
    rw [hjoin.livePaths_eq, h.livePaths_eq, length_livePathList, length_livePathList,
      hjoin.paths_eq]
    simp

/-! ### A path less -/

theorem path?_parted {id : PathId} {path : DataPath} (hpart : Parted g id path g')
    (other : PathId) : g'.path? other = if id = other then none else g.path? other := by
  rw [path?, hpart.paths_eq, path?_modify _ _ _ _ rfl]

/-- The list of a component from which a path is removed if it is registered there. -/
theorem count_filter_ne {l : List PathId} {id other n : Nat} (hn : l.count id = n) :
    (if n = 0 then l else l.filter (· != id)).count other =
      if id = other then 0 else l.count other := by
  by_cases h : id = other
  · subst h
    rw [if_pos rfl]
    split
    · next h0 => rw [hn, h0]
    · exact List.count_eq_zero.2 fun hmem => by simpa using (List.mem_filter.1 hmem).2
  · rw [if_neg h]
    split
    · rfl
    · exact List.count_filter (by simpa using Ne.symm h)

theorem ascending_filter_ne {l : List PathId} (id n : Nat) (hl : l.Pairwise (· ≤ ·)) :
    (if n = 0 then l else l.filter (· != id)).Pairwise (· ≤ ·) := by
  split
  · exact hl
  · exact hl.filter _

theorem parted (h : Registered g) {id : PathId} {path : DataPath} (hpath : g.path? id = some path)
    (hpart : Parted g id path g') : Registered g' where
  count_outgoing c other := by
    have hn : (g.outgoing c).count id = path.outgoingAt c := by
      rw [h.count_outgoing, outgoingCount, hpath]
    rw [hpart.outgoing_eq, count_filter_ne hn, h.count_outgoing, outgoingCount, outgoingCount,
      path?_parted hpart]
    by_cases hid : id = other <;> simp only [hid, if_true, if_false]
  count_incoming c other := by
    have hn : (g.incoming c).count id = path.incomingAt c := by
      rw [h.count_incoming, incomingCount, hpath]
    rw [hpart.incoming_eq, count_filter_ne hn, h.count_incoming, incomingCount, incomingCount,
      path?_parted hpart]
    by_cases hid : id = other <;> simp only [hid, if_true, if_false]
  outgoing_ascending c := by
    rw [hpart.outgoing_eq]
    exact ascending_filter_ne id _ (h.outgoing_ascending c)
  incoming_ascending c := by
    rw [hpart.incoming_eq]
    exact ascending_filter_ne id _ (h.incoming_ascending c)
  ends_lt other p hp := by
    rw [path?_parted hpart] at hp
    rw [hpart.size_eq]
    split at hp
    · cases hp
    · exact h.ends_lt other p hp
  livePaths_eq := by
    have hlt := lt_of_path? hpath
    have hslot : g.paths.toList.get ⟨id, hlt⟩ = some path := by
      have hget := hpath
      rw [path?, Array.getElem?_eq_getElem hlt] at hget
      exact hget
    simp only [List.get_eq_getElem] at hslot
    rw [hpart.livePaths_eq, h.livePaths_eq, length_livePathList, length_livePathList,
      hpart.paths_eq, Array.toList_modify, List.modify_eq_set, List.countP_set hlt, hslot]
    simp

end Registered

/-! ## Every edit keeps the invariant -/

namespace WellFormed

variable {g : Graph}

theorem empty : WellFormed Graph.empty where
  parent_lt c p h := by cases h
  count_children p c := rfl
  children_ascending p := List.Pairwise.nil
  mem_roots c := ⟨fun h => (List.not_mem_nil h).elim, fun h => absurd h.1 (Nat.not_lt_zero c)⟩
  roots_ascending := List.Pairwise.nil
  count_outgoing c id := rfl
  count_incoming c id := rfl
  outgoing_ascending c := List.Pairwise.nil
  incoming_ascending c := List.Pairwise.nil
  ends_lt id path h := by cases h
  livePaths_eq := rfl

theorem addComponent (h : WellFormed g) (parent : Option ComponentId) (c : Component) :
    WellFormed (g.addComponent parent c).2 := by
  rcases addComponent_cases g parent c with ⟨p, -, -, heq⟩ | ⟨g', heq, hadd, hparent⟩
  · rw [heq]
    exact h
  · rw [heq]
    exact ⟨h.toForest.added hadd hparent, h.toRegistered.added hadd⟩

theorem addPath (h : WellFormed g) (source target : ComponentId) (orientation : Orientation)
    (type : PathType) (notes : Annotations) :
    WellFormed (g.addPath source target orientation type notes).2 := by
  rcases addPath_cases g source target orientation type notes with
    ⟨c, -, -, heq⟩ | ⟨g', heq, hs, ht, hjoin⟩
  · rw [heq]
    exact h
  · rw [heq]
    exact ⟨h.toForest.congr hjoin.toSameForest, h.toRegistered.joined hjoin hs ht⟩

theorem deletePath (h : WellFormed g) (id : PathId) : WellFormed (g.deletePath id).2 := by
  rcases deletePath_cases g id with ⟨-, heq⟩ | ⟨path, g', hpath, heq, hpart⟩
  · rw [heq]
    exact h
  · rw [heq]
    exact ⟨h.toForest.congr hpart.toSameForest, h.toRegistered.parted hpath hpart⟩

theorem modifyComponent (h : WellFormed g) (id : ComponentId) (f : Component → Component) :
    WellFormed (g.modifyComponent id f) where
  toForest := h.toForest.congr (sameForest_modifyComponent g id f)
  toRegistered := h.toRegistered.congr (f := fun _ p => p)
    (fun _ => by rw [Option.map_id']; rfl) (fun _ _ => rfl) (fun _ _ => rfl) (fun _ _ => rfl)
    (fun c => pathsOf_modifyComponent g id c f _) (fun c => pathsOf_modifyComponent g id c f _)
    (Nat.le_of_eq (sameForest_modifyComponent g id f).size_eq.symm) rfl rfl

theorem modifyPath (h : WellFormed g) (id : PathId) (f : Annotations → Annotations) :
    WellFormed (g.modifyPath id f) where
  toForest := h.toForest.congr ⟨rfl, fun _ => rfl, fun _ => rfl, rfl⟩
  toRegistered := h.toRegistered.congr (path?_modifyPath g id · f)
    (fun _ _ => by split <;> rfl) (fun _ _ => by split <;> rfl) (fun _ _ => by split <;> rfl)
    (fun _ => rfl) (fun _ => rfl) (Nat.le_refl _) rfl
    (by
      rw [length_livePathList, length_livePathList, Graph.modifyPath, Array.toList_modify]
      exact countP_isSome_modify _ _ _)

theorem run (h : WellFormed g) (e : Edit) : WellFormed (e.run g).2 := by
  cases e with
  | addComponent parent c => exact h.addComponent parent c
  | addPath source target orientation type bandwidth latency => exact h.addPath _ _ _ _ _
  | connect source target orientation => exact h.addPath _ _ _ _ _
  | deletePath id => exact h.deletePath id
  | writeComponent id write => exact h.modifyComponent id write
  | writePath id write => exact h.modifyPath id write

theorem edits (h : WellFormed g) (list : List Edit) : WellFormed (g.edits list) := by
  induction list generalizing g with
  | nil => exact h
  | cons e rest ih => exact ih (h.run e)

end WellFormed

/-! ## An edit that fails changes nothing -/

theorem eq_of_addComponent_error {g : Graph} {parent : Option ComponentId} {c : Component}
    {error : Error} (h : (g.addComponent parent c).1 = .error error) :
    (g.addComponent parent c).2 = g := by
  rcases addComponent_cases g parent c with ⟨p, -, -, heq⟩ | ⟨g', heq, -⟩
  · rw [heq]
  · rw [heq] at h
    cases h

theorem eq_of_addPath_error {g : Graph} {source target : ComponentId} {orientation : Orientation}
    {type : PathType} {notes : Annotations} {error : Error}
    (h : (g.addPath source target orientation type notes).1 = .error error) :
    (g.addPath source target orientation type notes).2 = g := by
  rcases addPath_cases g source target orientation type notes with
    ⟨c, -, -, heq⟩ | ⟨g', heq, -⟩
  · rw [heq]
  · rw [heq] at h
    cases h

theorem eq_of_deletePath_error {g : Graph} {id : PathId} {error : Error}
    (h : (g.deletePath id).1 = .error error) : (g.deletePath id).2 = g := by
  rcases deletePath_cases g id with ⟨-, heq⟩ | ⟨path, g', -, heq, -⟩
  · rw [heq]
  · rw [heq] at h
    cases h

theorem eq_error_of_discard {α : Type} {answer : Except Error α} {error : Error}
    (h : discard answer = .error error) : answer = .error error := by
  cases answer with
  | error e =>
    cases h
    rfl
  | ok a => cases h

theorem eq_of_run_error {g : Graph} {e : Edit} {error : Error} (h : (e.run g).1 = .error error) :
    (e.run g).2 = g := by
  cases e with
  | addComponent parent c => exact eq_of_addComponent_error (eq_error_of_discard h)
  | addPath source target orientation type bandwidth latency =>
    exact eq_of_addPath_error (eq_error_of_discard h)
  | connect source target orientation => exact eq_of_addPath_error (eq_error_of_discard h)
  | deletePath id => exact eq_of_deletePath_error (eq_error_of_discard h)
  | writeComponent id write => cases h
  | writePath id write => cases h

/-- **The invariant of graphs**: after any edits of the empty graph the graph is well formed, and an
edit that fails then leaves it as it is. -/
theorem wellFormed_of_edits (list : List Edit) :
    (Graph.empty.edits list).WellFormed ∧
      ∀ (e : Edit) (error : Error), (e.run (Graph.empty.edits list)).1 = .error error →
        (e.run (Graph.empty.edits list)).2 = Graph.empty.edits list :=
  ⟨WellFormed.empty.edits list, fun _ _ => eq_of_run_error⟩

end Graph

end HardwareMap
