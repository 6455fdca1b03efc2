import HardwareMap.Proofs.Topology.Paths

/-!
# Finding a path

A path leads from its source to its target, and back as well if it is bidirectional
(`DataPath.Leads`).  The search for a path looks at the outgoing paths of the component it starts from
and takes what is not the start to be the far end.  That is enough: every path that leads on from a
component is outgoing there, and since the paths of a component stand in the order of their handles, the
first that fits is the oldest of all (`Graph.findPath?_oldest`).
-/

namespace HardwareMap

namespace DataPath

/-- The path can be taken from one component to another. -/
def Leads (p : DataPath) (start stop : ComponentId) : Prop :=
  p.source = start ∧ p.target = stop ∨
    p.orientation = .bidirectional ∧ p.source = stop ∧ p.target = start

/-- At one of its ends where it is outgoing, a path leads to its other end and nowhere else. -/
theorem leads_iff {p : DataPath} {start stop : ComponentId} :
    p.Leads start stop ↔ 0 < p.outgoingAt start ∧
      (if p.source = start then p.target else p.source) = stop := by
  rw [Graph.outgoingAt_pos, Leads]
  by_cases hs : p.source = start
  · rw [if_pos hs]
    constructor
    · rintro (⟨-, ht⟩ | ⟨-, hback, ht⟩)
      · exact ⟨.inl hs, ht⟩
      · exact ⟨.inl hs, ht.trans (hs.symm.trans hback)⟩
    · rintro ⟨-, ht⟩
      exact .inl ⟨hs, ht⟩
  · rw [if_neg hs]
    constructor
    · rintro (⟨hsource, -⟩ | ⟨ho, hback, ht⟩)
      · exact absurd hsource hs
      · exact ⟨.inr ⟨ho, ht⟩, hback⟩
    · rintro ⟨hsource | ⟨ho, ht⟩, hback⟩
      · exact absurd hsource hs
      · exact .inr ⟨ho, hback, ht⟩

end DataPath

/-- In an ascending list the first number that fits is the least one. -/
theorem find?_eq_some_iff_of_ascending {l : List Nat} (h : l.Pairwise (· ≤ ·)) {fits : Nat → Bool}
    {a : Nat} :
    l.find? fits = some a ↔ (a ∈ l ∧ fits a) ∧ ∀ b, b ∈ l ∧ fits b → a ≤ b := by
  induction l with
  | nil => simp
  | cons first rest ih =>
    obtain ⟨hfirst, hrest⟩ := List.pairwise_cons.1 h
    by_cases hfits : fits first
    · rw [List.find?_cons_of_pos hfits]
      constructor
      · rintro ⟨⟩
        refine ⟨⟨List.mem_cons_self, hfits⟩, fun b hb => ?_⟩
        rcases List.mem_cons.1 hb.1 with rfl | hb
        · exact Nat.le_refl _
        · exact hfirst b hb
      · rintro ⟨⟨ha, -⟩, hleast⟩
        have hle := hleast first ⟨List.mem_cons_self, hfits⟩
        rcases List.mem_cons.1 ha with rfl | ha
        · rfl
        · rw [Nat.le_antisymm hle (hfirst a ha)]
    · have hmem : ∀ b, b ∈ first :: rest ∧ fits b ↔ b ∈ rest ∧ fits b := by
        refine fun b => and_congr_left fun hb => ?_
        have hne : b ≠ first := fun heq => hfits (heq ▸ hb)
        rw [List.mem_cons, or_iff_right hne]
      rw [List.find?_cons_of_neg hfits, ih hrest]
      simp only [hmem]

namespace Graph

/-- The handle is that of a live path that leads from one component to another. -/
def Links (g : Graph) (start stop : ComponentId) (id : PathId) : Prop :=
  ∃ p, g.path? id = some p ∧ p.Leads start stop

/-- A path leads on from a component if it is outgoing there and its other end is the right one. -/
theorem Registered.links_iff {g : Graph} (h : g.Registered) {start stop : ComponentId}
    {id : PathId} :
    g.Links start stop id ↔ id ∈ g.outgoing start ∧ (match g.path? id with
      | none => false
      | some p => (if p.source = start then p.target else p.source) == stop) = true := by
  rw [Links, h.mem_outgoing]
  cases g.path? id with
  | none => simp
  | some p => simp [DataPath.leads_iff]

/-- **Finding a path**: in a graph that was made by any edits, and from whichever component to whichever
other one, known or not, the search finds the oldest live path that leads there, and nothing just if
there is none. -/
theorem findPath?_oldest (list : List Edit) (start stop : ComponentId) :
    let g := Graph.empty.edits list
    (∀ id, g.findPath? start stop = some id ↔
      g.Links start stop id ∧ ∀ other, g.Links start stop other → id ≤ other) ∧
    (g.findPath? start stop = none ↔ ∀ id, ¬g.Links start stop id) := by
  intro g
  have h : g.Registered := (WellFormed.empty.edits list).toRegistered
  refine ⟨fun id => ?_, ?_⟩
  · simp only [h.links_iff]
    exact find?_eq_some_iff_of_ascending (h.outgoing_ascending start)
  · simp only [h.links_iff, not_and]
    exact List.find?_eq_none

/-- Between two cores that are joined three times, back and forth, once the oldest path is deleted. -/
example :
    let g := Graph.empty.edits
      [.addComponent none { id := 0, details := .core }, .addComponent none { id := 1, details := .core },
        .connect 0 1 .bidirectional, .connect 0 1 .oriented, .connect 1 0 .bidirectional, .deletePath 0]
    g.findPath? 0 1 = some 1 ∧ g.findPath? 1 0 = some 2 ∧ g.findPath? 0 0 = none := by
  decide +kernel

end Graph

end HardwareMap
