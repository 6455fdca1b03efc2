import HardwareMap.Topology.Graph

/-!
# What an edit does to a graph

An `Edit` is a call that changes a graph, or a write to what may be written at any time.  Each is
described once, by what it does to the views of a graph: the content, parent and children of a
component, the roots, the lists of paths and the paths themselves (`Added`, `Joined`, `Parted`).
A list of a component mentions a path as often as `DataPath.outgoingAt` and `DataPath.incomingAt`
say, twice for a bidirectional path from a component to itself.
-/

namespace HardwareMap

namespace DataPath

/-- How often a path is listed as outgoing at a component. -/
def outgoingAt (p : DataPath) (c : ComponentId) : Nat :=
  (if p.source = c then 1 else 0) +
    if p.orientation = .bidirectional ∧ p.target = c then 1 else 0

/-- How often a path is listed as incoming at a component. -/
def incomingAt (p : DataPath) (c : ComponentId) : Nat :=
  (if p.target = c then 1 else 0) +
    if p.orientation = .bidirectional ∧ p.source = c then 1 else 0

end DataPath

namespace Graph

/-- The content of a component, without its links. -/
def content? (g : Graph) (c : ComponentId) : Option Component :=
  (g.member? c).map (·.toComponent)

/-- The paths listed as outgoing at a component. -/
abbrev outgoing (g : Graph) (c : ComponentId) : List PathId := g.pathsOf c .outgoing

/-- The paths listed as incoming at a component. -/
abbrev incoming (g : Graph) (c : ComponentId) : List PathId := g.pathsOf c .incoming

/-! ## Views of a graph whose components changed -/

theorem member?_eq_none_iff {g : Graph} {c : ComponentId} : g.member? c = none ↔ g.size ≤ c := by
  simp [member?, size]

theorem member?_of_lt {g : Graph} {c : ComponentId} (h : c < g.size) : ∃ m, g.member? c = some m :=
  ⟨g.members[c], Array.getElem?_eq_getElem h⟩

theorem lt_of_member? {g : Graph} {c : ComponentId} {m : Member} (h : g.member? c = some m) :
    c < g.size := by
  rw [← Nat.not_le, ← member?_eq_none_iff, h]
  exact Option.some_ne_none m

theorem parent?_eq {g : Graph} {c : ComponentId} {m : Member} (h : g.member? c = some m) :
    g.parent? c = m.parent := by
  simp [parent?, h]

theorem children_eq {g : Graph} {c : ComponentId} {m : Member} (h : g.member? c = some m) :
    g.children c = m.children := by
  simp [children, h]

theorem outgoing_eq {g : Graph} {c : ComponentId} {m : Member} (h : g.member? c = some m) :
    g.outgoing c = m.outgoing := by
  simp [outgoing, pathsOf, h]

theorem incoming_eq {g : Graph} {c : ComponentId} {m : Member} (h : g.member? c = some m) :
    g.incoming c = m.incoming := by
  simp [incoming, pathsOf, h]

/-- What is known of a component by its views is all that there is. -/
theorem member?_of_content? {g : Graph} {c : ComponentId} {x : Component}
    (h : g.content? c = some x) :
    g.member? c = some { x with
      parent := g.parent? c
      children := g.children c
      outgoing := g.outgoing c
      incoming := g.incoming c } := by
  obtain ⟨m, hm, rfl⟩ := Option.map_eq_some_iff.1 h
  rw [parent?_eq hm, children_eq hm, outgoing_eq hm, incoming_eq hm, hm]

theorem lt_of_parent? {g : Graph} {c p : ComponentId} (h : g.parent? c = some p) : c < g.size := by
  obtain ⟨m, hm, -⟩ := Option.bind_eq_some_iff.1 h
  exact lt_of_member? hm

theorem path?_push (g : Graph) (slot : Option DataPath) (id : PathId) :
    ((g.paths.push slot)[id]?).join = if id = g.paths.size then slot else g.path? id := by
  rw [Array.getElem?_push, path?]
  split <;> rfl

theorem path?_modify (g : Graph) (id other : PathId) (f : Option DataPath → Option DataPath)
    (hf : f none = none) :
    ((g.paths.modify id f)[other]?).join =
      if id = other then f (g.path? other) else g.path? other := by
  rw [Array.getElem?_modify, path?]
  split
  · cases g.paths[other]? with
    | none => exact hf.symm
    | some slot => rfl
  · rfl

/-- Two graphs with the same components in the same forest. -/
structure SameForest (g g' : Graph) : Prop where
  size_eq : g'.size = g.size
  parent?_eq : ∀ c, g'.parent? c = g.parent? c
  children_eq : ∀ c, g'.children c = g.children c
  roots_eq : g'.roots = g.roots

namespace SameForest

theorem refl (g : Graph) : SameForest g g :=
  ⟨rfl, fun _ => rfl, fun _ => rfl, rfl⟩

theorem trans {g g' g'' : Graph} (h : SameForest g g') (h' : SameForest g' g'') :
    SameForest g g'' where
  size_eq := h'.size_eq.trans h.size_eq
  parent?_eq c := (h'.parent?_eq c).trans (h.parent?_eq c)
  children_eq c := (h'.children_eq c).trans (h.children_eq c)
  roots_eq := h'.roots_eq.trans h.roots_eq

end SameForest

/-- A change of every component that keeps parents and children keeps the forest. -/
theorem sameForest_of_member? {g g' : Graph} {f : ComponentId → Member → Member}
    (hm : ∀ c, g'.member? c = (g.member? c).map (f c)) (hsize : g'.size = g.size)
    (hroots : g'.roots = g.roots) (hparent : ∀ c m, (f c m).parent = m.parent)
    (hchildren : ∀ c m, (f c m).children = m.children) : SameForest g g' where
  size_eq := hsize
  parent?_eq c := by
    unfold parent?
    rw [hm]
    cases g.member? c with
    | none => rfl
    | some m => exact hparent c m
  children_eq c := by
    unfold children
    rw [hm]
    cases g.member? c with
    | none => rfl
    | some m => exact hchildren c m
  roots_eq := hroots

/-! ## Adding a component -/

/-- The graph that adding a component leaves behind. -/
structure Added (g : Graph) (parent : Option ComponentId) (c : Component) (g' : Graph) : Prop where
  size_eq : g'.size = g.size + 1
  content?_eq : ∀ id, g'.content? id = if id = g.size then some c else g.content? id
  parent?_eq : ∀ id, g'.parent? id = if id = g.size then parent else g.parent? id
  children_eq : ∀ id, g'.children id = g.children id ++ if parent = some id then [g.size] else []
  roots_eq : g'.roots = g.roots ++ if parent = none then [g.size] else []
  pathsOf_eq : ∀ id direction, g'.pathsOf id direction = g.pathsOf id direction
  paths_eq : g'.paths = g.paths
  livePaths_eq : g'.livePaths = g.livePaths

theorem pathsOf_of_member?_eq_none {g : Graph} {c : ComponentId} (h : g.member? c = none)
    (direction : Direction) : g.pathsOf c direction = [] := by
  simp [pathsOf, h]

theorem added_of_member? {g g' : Graph} {parent : Option ComponentId} {c : Component}
    (hparent : ∀ p, parent = some p → p < g.size)
    (hmember : ∀ id, g'.member? id =
      if id = g.size then some { c with parent }
      else (g.member? id).map fun m =>
        { m with children := m.children ++ if parent = some id then [g.size] else [] })
    (hsize : g'.size = g.size + 1)
    (hroots : g'.roots = g.roots ++ if parent = none then [g.size] else [])
    (hpaths : g'.paths = g.paths) (hlive : g'.livePaths = g.livePaths) :
    Added g parent c g' := by
  have hnone : g.member? g.size = none := member?_eq_none_iff.2 (Nat.le_refl _)
  have hself : parent ≠ some g.size := fun h => Nat.lt_irrefl _ (hparent _ h)
  refine ⟨hsize, fun id => ?_, fun id => ?_, fun id => ?_, hroots, fun id direction => ?_, hpaths,
    hlive⟩
  · rw [content?, content?, hmember]
    split
    · rfl
    · cases g.member? id <;> rfl
  · rw [parent?, parent?, hmember]
    split
    · rfl
    · cases g.member? id <;> rfl
  · rw [children, children, hmember]
    by_cases h : id = g.size
    · rw [if_pos h, h, hnone, if_neg hself]
      rfl
    · rw [if_neg h]
      cases hm : g.member? id with
      | some m => rfl
      | none =>
        -- Only a component that is there adopts.
        have hne : parent ≠ some id := fun h =>
          absurd (hparent id h) (Nat.not_lt.2 (member?_eq_none_iff.1 hm))
        rw [if_neg hne]
        rfl
  · rw [pathsOf, pathsOf, hmember]
    by_cases h : id = g.size
    · rw [if_pos h, h, hnone]
      cases direction <;> rfl
    · rw [if_neg h]
      cases g.member? id <;> rfl

/-- Adding a component fails on an unknown parent, which leaves the graph as it was. -/
theorem addComponent_cases (g : Graph) (parent : Option ComponentId) (c : Component) :
    (∃ p, parent = some p ∧ g.size ≤ p ∧
        g.addComponent parent c = (.error (.missing (.component p)), g)) ∨
      ∃ g', g.addComponent parent c = (.ok g.size, g') ∧ Added g parent c g' ∧
        ∀ p, parent = some p → p < g.size := by
  cases parent with
  | none =>
    refine .inr ⟨_, rfl, added_of_member? (by simp) (fun id => ?_) (by simp [size]) rfl rfl rfl,
      by simp⟩
    rw [member?, Array.getElem?_push]
    by_cases h : id = g.size
    · rw [if_pos h, if_pos (show id = g.members.size from h)]
    · rw [if_neg h, if_neg (show id ≠ g.members.size from h), member?]
      cases g.members[id]? <;> simp
  | some p =>
    by_cases hp : p < g.size
    · have heq : g.addComponent (some p) c = (.ok g.size,
          { g with
            members := (g.members.push { c with parent := some p }).modify p fun m =>
              { m with children := m.children ++ [g.size] } }) := by
        simp only [addComponent, require, if_pos (show p < g.members.size from hp)]
        rfl
      refine .inr ⟨_, heq, added_of_member? ?_ (fun id => ?_) (by simp [size]) (by simp) rfl rfl,
        ?_⟩
      · rintro _ ⟨⟩
        exact hp
      · rw [member?, Array.getElem?_modify, Array.getElem?_push]
        by_cases h : id = g.size
        · subst h
          have hne : p ≠ g.size := Nat.ne_of_lt hp
          rw [if_neg hne, if_pos rfl, if_pos (show g.size = g.members.size from rfl)]
        · rw [if_neg (show id ≠ g.members.size from h), if_neg h, member?]
          by_cases hpid : p = id
          · subst hpid
            simp
          · have hpid' : some p ≠ some id := fun h => hpid (Option.some.inj h)
            cases g.members[id]? <;> simp [hpid]
      · rintro _ ⟨⟩
        exact hp
    · refine .inl ⟨p, rfl, Nat.le_of_not_lt hp, ?_⟩
      simp only [addComponent, require, if_neg (show ¬ p < g.members.size from hp)]

/-! ## Registering a path -/

theorem repeat_append (id : PathId) (n : Nat) (l : List PathId) :
    Nat.repeat (· ++ [id]) n l = l ++ List.replicate n id := by
  induction n with
  | zero => simp [Nat.repeat]
  | succ n ih => simp [Nat.repeat, ih, List.replicate_succ']

theorem repeat_filter (id : PathId) (n : Nat) (l : List PathId) :
    Nat.repeat (·.filter (· != id)) n l = if n = 0 then l else l.filter (· != id) := by
  induction n with
  | zero => rfl
  | succ n ih =>
    rw [Nat.repeat, ih, if_neg (Nat.succ_ne_zero n)]
    split
    · rfl
    · simp

/-- An edit is applied to a list of a component as often as the path is registered there. -/
theorem getElem?_editRegistrations (members : Array Member) (path : DataPath)
    (edit : List PathId → List PathId) (c : ComponentId) :
    (editRegistrations members path.orientation path.source path.target edit)[c]? =
      members[c]?.map fun m =>
        { m with
          outgoing := Nat.repeat edit (path.outgoingAt c) m.outgoing
          incoming := Nat.repeat edit (path.incomingAt c) m.incoming } := by
  unfold editRegistrations DataPath.outgoingAt DataPath.incomingAt
  cases path.orientation <;>
    simp only [Array.getElem?_modify, reduceCtorEq, false_and, true_and] <;>
    by_cases hs : path.source = c <;> by_cases ht : path.target = c <;>
    cases members[c]? <;>
    simp [hs, ht, editLists, Nat.repeat]

theorem size_editRegistrations (members : Array Member) (orientation : Orientation)
    (source target : ComponentId) (edit : List PathId → List PathId) :
    (editRegistrations members orientation source target edit).size = members.size := by
  cases orientation <;> simp [editRegistrations]

/-- The graph that adding a path leaves behind. -/
structure Joined (g : Graph) (path : DataPath) (g' : Graph) : Prop extends SameForest g g' where
  content?_eq : ∀ c, g'.content? c = g.content? c
  outgoing_eq : ∀ c, g'.outgoing c =
    g.outgoing c ++ List.replicate (path.outgoingAt c) g.paths.size
  incoming_eq : ∀ c, g'.incoming c =
    g.incoming c ++ List.replicate (path.incomingAt c) g.paths.size
  paths_eq : g'.paths = g.paths.push (some path)
  livePaths_eq : g'.livePaths = g.livePaths + 1

/-- The graph that deleting a path leaves behind. -/
structure Parted (g : Graph) (id : PathId) (path : DataPath) (g' : Graph) : Prop
    extends SameForest g g' where
  content?_eq : ∀ c, g'.content? c = g.content? c
  outgoing_eq : ∀ c, g'.outgoing c =
    if path.outgoingAt c = 0 then g.outgoing c else (g.outgoing c).filter (· != id)
  incoming_eq : ∀ c, g'.incoming c =
    if path.incomingAt c = 0 then g.incoming c else (g.incoming c).filter (· != id)
  paths_eq : g'.paths = g.paths.modify id fun _ => none
  livePaths_eq : g'.livePaths = g.livePaths - 1

section Registrations

variable {g g' : Graph} {path : DataPath} {edit : List PathId → List PathId}
  (hmembers : g'.members =
    editRegistrations g.members path.orientation path.source path.target edit)

include hmembers

theorem member?_editRegistrations (c : ComponentId) :
    g'.member? c = (g.member? c).map fun m =>
      { m with
        outgoing := Nat.repeat edit (path.outgoingAt c) m.outgoing
        incoming := Nat.repeat edit (path.incomingAt c) m.incoming } := by
  rw [member?, hmembers, getElem?_editRegistrations]
  rfl

theorem sameForest_editRegistrations (hroots : g'.roots = g.roots) : SameForest g g' :=
  sameForest_of_member? (member?_editRegistrations hmembers)
    (by rw [size, hmembers, size_editRegistrations]; rfl) hroots (fun _ _ => rfl) fun _ _ => rfl

theorem content?_editRegistrations (c : ComponentId) : g'.content? c = g.content? c := by
  rw [content?, content?, member?_editRegistrations hmembers]
  cases g.member? c <;> rfl

/-- A component that is not there has no list to edit. -/
theorem outgoing_editRegistrations (c : ComponentId)
    (h : g.size ≤ c → Nat.repeat edit (path.outgoingAt c) [] = []) :
    g'.outgoing c = Nat.repeat edit (path.outgoingAt c) (g.outgoing c) := by
  rw [outgoing, outgoing, pathsOf, pathsOf, member?_editRegistrations hmembers]
  cases hm : g.member? c with
  | none => exact (h (member?_eq_none_iff.1 hm)).symm
  | some m => rfl

theorem incoming_editRegistrations (c : ComponentId)
    (h : g.size ≤ c → Nat.repeat edit (path.incomingAt c) [] = []) :
    g'.incoming c = Nat.repeat edit (path.incomingAt c) (g.incoming c) := by
  rw [incoming, incoming, pathsOf, pathsOf, member?_editRegistrations hmembers]
  cases hm : g.member? c with
  | none => exact (h (member?_eq_none_iff.1 hm)).symm
  | some m => rfl

end Registrations

theorem outgoingAt_eq_zero {p : DataPath} {c : ComponentId} (hs : p.source ≠ c)
    (ht : p.target ≠ c) : p.outgoingAt c = 0 := by
  simp [DataPath.outgoingAt, hs, ht]

theorem incomingAt_eq_zero {p : DataPath} {c : ComponentId} (hs : p.source ≠ c)
    (ht : p.target ≠ c) : p.incomingAt c = 0 := by
  simp [DataPath.incomingAt, hs, ht]

theorem require_of_lt {g : Graph} {c : ComponentId} (h : c < g.size) : g.require c = .ok () :=
  if_pos h

theorem require_of_le {g : Graph} {c : ComponentId} (h : g.size ≤ c) :
    g.require c = .error (.missing (.component c)) :=
  if_neg (Nat.not_lt.2 h)

/-- Adding a path fails if an end is unknown, which leaves the graph as it was. -/
theorem addPath_cases (g : Graph) (source target : ComponentId) (orientation : Orientation)
    (type : PathType) (notes : Annotations) :
    (∃ c, (c = source ∨ c = target) ∧ g.size ≤ c ∧
        g.addPath source target orientation type notes = (.error (.missing (.component c)), g)) ∨
      ∃ g', g.addPath source target orientation type notes = (.ok g.paths.size, g') ∧
        source < g.size ∧ target < g.size ∧
        Joined g { notes with source, target, orientation, type } g' := by
  by_cases hs : source < g.size
  · by_cases ht : target < g.size
    · let path : DataPath := { notes with source, target, orientation, type }
      let g' : Graph := { g with
        members := editRegistrations g.members orientation source target (· ++ [g.paths.size])
        paths := g.paths.push (some path)
        livePaths := g.livePaths + 1 }
      have hmembers : g'.members = editRegistrations g.members path.orientation path.source
        path.target (· ++ [g.paths.size]) := rfl
      refine .inr ⟨g', ?_, hs, ht, ?_⟩
      · rw [addPath, require_of_lt hs, require_of_lt ht]
      · have hends : ∀ c, g.size ≤ c → path.source ≠ c ∧ path.target ≠ c := fun c hc =>
          ⟨Nat.ne_of_lt (Nat.lt_of_lt_of_le hs hc), Nat.ne_of_lt (Nat.lt_of_lt_of_le ht hc)⟩
        refine ⟨sameForest_editRegistrations hmembers rfl, content?_editRegistrations hmembers,
          fun c => ?_, fun c => ?_, rfl, rfl⟩
        · rw [outgoing_editRegistrations hmembers c, repeat_append]
          intro hc
          rw [outgoingAt_eq_zero (hends c hc).1 (hends c hc).2]
          rfl
        · rw [incoming_editRegistrations hmembers c, repeat_append]
          intro hc
          rw [incomingAt_eq_zero (hends c hc).1 (hends c hc).2]
          rfl
    · refine .inl ⟨target, .inr rfl, Nat.le_of_not_lt ht, ?_⟩
      rw [addPath, require_of_lt hs, require_of_le (Nat.le_of_not_lt ht)]
  · refine .inl ⟨source, .inl rfl, Nat.le_of_not_lt hs, ?_⟩
    rw [addPath, require_of_le (Nat.le_of_not_lt hs)]

/-! ## Deleting a path -/

/-- Emptying a slot that holds no path changes nothing. -/
theorem modify_none_of_path?_eq_none {g : Graph} {id : PathId} (h : g.path? id = none) :
    (g.paths.modify id fun _ => none) = g.paths := by
  apply Array.ext_getElem?
  intro i
  rw [Array.getElem?_modify]
  split
  · next hi =>
    subst hi
    unfold path? at h
    cases hslot : g.paths[id]? with
    | none => rfl
    | some slot =>
      rw [hslot] at h
      cases slot with
      | none => rfl
      | some path => cases h
  · rfl

/-- Deleting a path fails if there is no such path, which leaves the graph as it was. -/
theorem deletePath_cases (g : Graph) (id : PathId) :
    (g.path? id = none ∧ g.deletePath id = (.error (.missing (.dataPath id)), g)) ∨
      ∃ path g', g.path? id = some path ∧ g.deletePath id = (.ok path, g') ∧
        Parted g id path g' := by
  cases h : g.path? id with
  | none =>
    refine .inl ⟨rfl, ?_⟩
    simp only [deletePath, h, modify_none_of_path?_eq_none h]
  | some path =>
    let g' : Graph := { g with
      members := editRegistrations g.members path.orientation path.source path.target
        (·.filter (· != id))
      paths := g.paths.modify id fun _ => none
      livePaths := g.livePaths - 1 }
    have hmembers : g'.members = editRegistrations g.members path.orientation path.source
      path.target (·.filter (· != id)) := rfl
    refine .inr ⟨path, g', rfl, ?_, ?_⟩
    · simp only [deletePath, h]
      rfl
    · have hnil : ∀ n, Nat.repeat (·.filter (· != id)) n [] = ([] : List PathId) := fun n => by
        rw [repeat_filter]
        split <;> rfl
      refine ⟨sameForest_editRegistrations hmembers rfl, content?_editRegistrations hmembers,
        fun c => ?_, fun c => ?_, rfl, rfl⟩
      · rw [outgoing_editRegistrations hmembers c fun _ => hnil _, repeat_filter]
      · rw [incoming_editRegistrations hmembers c fun _ => hnil _, repeat_filter]

/-! ## Writing to components and paths -/

theorem member?_modifyComponent (g : Graph) (id c : ComponentId) (f : Component → Component) :
    (g.modifyComponent id f).member? c =
      (g.member? c).map fun m =>
        if id = c then { m with toComponent := f m.toComponent } else m := by
  rw [member?, modifyComponent, Array.getElem?_modify, member?]
  split
  · rfl
  · simp

theorem sameForest_modifyComponent (g : Graph) (id : ComponentId) (f : Component → Component) :
    SameForest g (g.modifyComponent id f) :=
  sameForest_of_member? (member?_modifyComponent g id · f)
    (by simp [size, modifyComponent]) rfl (fun c m => by split <;> rfl) fun c m => by split <;> rfl

theorem pathsOf_modifyComponent (g : Graph) (id c : ComponentId) (f : Component → Component)
    (direction : Direction) :
    (g.modifyComponent id f).pathsOf c direction = g.pathsOf c direction := by
  rw [pathsOf, pathsOf, member?_modifyComponent]
  cases g.member? c with
  | none => rfl
  | some m => by_cases h : id = c <;> simp [h]

theorem path?_modifyPath (g : Graph) (id other : PathId) (f : Annotations → Annotations) :
    (g.modifyPath id f).path? other =
      (g.path? other).map fun path =>
        if id = other then { path with toAnnotations := f path.toAnnotations } else path := by
  rw [path?, modifyPath, path?_modify _ _ _ _ rfl]
  split
  · rfl
  · simp

end Graph

end HardwareMap
