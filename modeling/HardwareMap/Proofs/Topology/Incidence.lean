import HardwareMap.Proofs.Topology.Paths
import Mathlib.Data.List.Nodup

/-!
# The paths at a component

Looked up in both directions, a component has its outgoing paths and then the incoming ones that are
not outgoing as well (`Graph.Registered.pathsOf_any_eq`).  Only the incoming ones are compared with
what is there already, so a path is listed as often as it is outgoing: a bidirectional path from a
component to itself is outgoing at both of its ends and listed twice, and every other path at the
component once (`Graph.pathsOf_any_accounted`).
-/

namespace HardwareMap

namespace DataPath

/-- The path joins a component with itself, both ways. -/
def isBidirectionalLoop (p : DataPath) : Bool :=
  p.orientation == .bidirectional && p.source == p.target

theorem touches_iff {p : DataPath} {c : ComponentId} :
    p.touches c = true ↔ p.source = c ∨ p.target = c := by
  simp [touches]

theorem isBidirectionalLoop_iff {p : DataPath} :
    p.isBidirectionalLoop = true ↔ p.orientation = .bidirectional ∧ p.source = p.target := by
  simp [isBidirectionalLoop]

/-- A path is outgoing at one of its ends more than once only if it leads back there both ways. -/
theorem outgoingAt_of_touches {p : DataPath} {c : ComponentId} (h : p.touches c)
    (hpos : 0 < p.outgoingAt c) : p.outgoingAt c = if p.isBidirectionalLoop then 2 else 1 := by
  rw [touches_iff] at h
  simp only [outgoingAt, isBidirectionalLoop_iff] at hpos ⊢
  by_cases hs : p.source = c <;> by_cases ht : p.target = c <;>
    by_cases ho : p.orientation = .bidirectional <;> grind

/-- A path that only comes in at one of its ends comes in once, and leads nowhere back. -/
theorem incomingAt_of_touches {p : DataPath} {c : ComponentId} (h : p.touches c)
    (hzero : p.outgoingAt c = 0) : p.incomingAt c = 1 ∧ p.isBidirectionalLoop = false := by
  rw [touches_iff] at h
  simp only [outgoingAt, incomingAt, isBidirectionalLoop] at hzero ⊢
  by_cases hs : p.source = c <;> by_cases ht : p.target = c <;>
    by_cases ho : p.orientation = .bidirectional <;> simp_all

end DataPath

namespace Graph

/-- Adding what is not there yet, one after the other, adds all that is not there at the start, if
nothing of that comes twice. -/
theorem foldl_append_eq {l found : List PathId} (h : (l.filter (· ∉ found)).Nodup) :
    l.foldl (fun found path => if path ∈ found then found else found ++ [path]) found =
      found ++ l.filter (· ∉ found) := by
  induction l generalizing found with
  | nil => simp
  | cons path rest ih =>
    rw [List.foldl_cons]
    by_cases hpath : path ∈ found
    · rw [List.filter_cons_of_neg (by simp [hpath])] at h ⊢
      rw [if_pos hpath, ih h]
    · rw [List.filter_cons_of_pos (by simp [hpath])] at h ⊢
      obtain ⟨hfirst, hrest⟩ := List.nodup_cons.1 h
      have hsame : rest.filter (· ∉ found ++ [path]) = rest.filter (· ∉ found) := by
        refine List.filter_congr fun id hid => ?_
        have hne : id ∉ found → id ≠ path := by
          rintro hnew rfl
          exact hfirst (List.mem_filter.2 ⟨hid, by simpa using hnew⟩)
        grind
      rw [if_neg hpath, ih (by rwa [hsame]), hsame, List.append_assoc, List.singleton_append]

section Registered

variable {g : Graph} (h : g.Registered) (c : ComponentId)

include h

theorem Registered.counts_of_path? {id : PathId} {p : DataPath} (hp : g.path? id = some p) :
    (g.outgoing c).count id = p.outgoingAt c ∧ (g.incoming c).count id = p.incomingAt c := by
  rw [h.count_outgoing, h.count_incoming, outgoingCount, incomingCount, hp]
  exact ⟨rfl, rfl⟩

/-- No path that comes in without going out is listed twice. -/
theorem Registered.nodup_incoming_only :
    ((g.incoming c).filter (· ∉ g.outgoing c)).Nodup := by
  rw [List.nodup_iff_count_le_one]
  intro id
  by_cases hmem : id ∈ (g.incoming c).filter (· ∉ g.outgoing c)
  · obtain ⟨hin, hout⟩ := List.mem_filter.1 hmem
    obtain ⟨p, hp, hpos⟩ := h.mem_incoming.1 hin
    obtain ⟨hcountOut, hcountIn⟩ := h.counts_of_path? c hp
    have hzero : p.outgoingAt c = 0 := by
      rw [← hcountOut]
      exact List.count_eq_zero.2 (of_decide_eq_true hout)
    have htouches : p.touches c := by
      rw [DataPath.touches_iff]
      rcases incomingAt_pos.1 hpos with ht | ⟨-, hs⟩
      · exact .inr ht
      · exact .inl hs
    rw [List.count_filter (by simpa using hout), hcountIn]
    exact Nat.le_of_eq (DataPath.incomingAt_of_touches htouches hzero).1
  · rw [List.count_eq_zero.2 hmem]
    exact Nat.zero_le 1

/-- In both directions: what goes out, and then what only comes in. -/
theorem Registered.pathsOf_any_eq :
    g.pathsOf c .any = g.outgoing c ++ (g.incoming c).filter (· ∉ g.outgoing c) := by
  have hnodup := h.nodup_incoming_only c
  cases hm : g.member? c with
  | none =>
    simp only [outgoing, incoming, pathsOf_of_member?_eq_none hm, List.filter_nil, List.append_nil]
  | some m =>
    rw [outgoing_eq hm, incoming_eq hm] at hnodup ⊢
    simp only [pathsOf, hm]
    exact foldl_append_eq hnodup

/-- A path at a component is listed there once, or twice if it leads back to it both ways. -/
theorem Registered.count_pathsOf_any {id : PathId} {p : DataPath} (hp : g.path? id = some p)
    (htouches : p.touches c) :
    (g.pathsOf c .any).count id = if p.isBidirectionalLoop then 2 else 1 := by
  obtain ⟨hcountOut, hcountIn⟩ := h.counts_of_path? c hp
  rw [h.pathsOf_any_eq, List.count_append, hcountOut]
  by_cases hout : id ∈ g.outgoing c
  · have hnone : id ∉ (g.incoming c).filter (· ∉ g.outgoing c) := fun hmem =>
      of_decide_eq_true (List.mem_filter.1 hmem).2 hout
    rw [List.count_eq_zero.2 hnone, Nat.add_zero]
    refine DataPath.outgoingAt_of_touches htouches ?_
    rw [← hcountOut]
    exact List.count_pos_iff.2 hout
  · have hzero : p.outgoingAt c = 0 := by rw [← hcountOut, List.count_eq_zero.2 hout]
    obtain ⟨hone, hloop⟩ := DataPath.incomingAt_of_touches htouches hzero
    rw [List.count_filter (by simpa using hout), hcountIn, hzero, hone, hloop]
    rfl

theorem Registered.mem_pathsOf_any_iff {id : PathId} :
    id ∈ g.pathsOf c .any ↔ ∃ p, g.path? id = some p ∧ p.touches c = true := by
  rw [h.mem_pathsOf_any]
  exact exists_congr fun p => and_congr_right fun _ => DataPath.touches_iff.symm

theorem Registered.nodup_pathsOf_any :
    (g.pathsOf c .any).Nodup ↔
      ∀ id p, g.path? id = some p → p.touches c → p.isBidirectionalLoop = false := by
  rw [List.nodup_iff_count_le_one]
  constructor
  · intro hle id p hp htouches
    have hcount := h.count_pathsOf_any c hp htouches
    have hone := hle id
    by_contra hloop
    rw [Bool.not_eq_false] at hloop
    rw [hcount, if_pos hloop] at hone
    omega
  · intro hnone id
    by_cases hmem : id ∈ g.pathsOf c .any
    · obtain ⟨p, hp, htouches⟩ := (h.mem_pathsOf_any_iff c).1 hmem
      rw [h.count_pathsOf_any c hp htouches, hnone id p hp htouches]
      exact Nat.le_refl 1
    · rw [List.count_eq_zero.2 hmem]
      exact Nat.zero_le 1

end Registered

/-- **The paths at a component**: in a graph that was made by any edits, a component that is looked up
in both directions, known or not, has its outgoing paths and then the incoming ones that are not
outgoing as well.  These are the live paths that touch it.  Each is listed once, unless it is
bidirectional and leads from the component to itself, and such a path is listed twice; so without such
a path, and only then, the list has no path twice. -/
theorem pathsOf_any_accounted (list : List Edit) (c : ComponentId) :
    let g := Graph.empty.edits list
    let paths := g.pathsOf c .any
    paths = g.pathsOf c .outgoing ++
      (g.pathsOf c .incoming).filter (· ∉ g.pathsOf c .outgoing) ∧
    (∀ id, id ∈ paths ↔ ∃ p, g.path? id = some p ∧ p.touches c = true) ∧
    (∀ id p, g.path? id = some p → p.touches c → paths.count id =
      if p.orientation = .bidirectional ∧ p.source = p.target then 2 else 1) ∧
    (paths.Nodup ↔ ∀ id p, g.path? id = some p → p.touches c →
      ¬(p.orientation = .bidirectional ∧ p.source = p.target)) := by
  intro g paths
  have h : g.Registered := (WellFormed.empty.edits list).toRegistered
  refine ⟨h.pathsOf_any_eq c, fun _ => h.mem_pathsOf_any_iff c, ?_, ?_⟩
  · intro id p hp htouches
    simp only [← DataPath.isBidirectionalLoop_iff]
    exact h.count_pathsOf_any c hp htouches
  · simp only [← DataPath.isBidirectionalLoop_iff, Bool.not_eq_true]
    exact h.nodup_pathsOf_any c

/-- A node that is joined to itself both ways has this one path listed twice. -/
theorem pathsOf_any_loop :
    let g := Graph.empty.edits
      [.addComponent none { id := 0, details := .node }, .connect 0 0 .bidirectional]
    g.pathsOf 0 .any = [0, 0] ∧ ¬(g.pathsOf 0 .any).Nodup ∧ g.livePaths = 1 := by
  decide +kernel

end Graph

end HardwareMap
