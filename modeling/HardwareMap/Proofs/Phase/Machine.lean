import HardwareMap.Error
import Mathlib.Data.List.Nodup

/-!
# Machines that run in phases

A machine has its phases in a row, and each of its calls enters one of them from the one before
(`Machine.consecutive`).  A call that finds the machine in another phase is refused, and nothing else
happens; one that enters its phase counts as entered, however it ends.  So the phases that a run has still
to enter are what is left of the row (`Machine.Ahead`).  A call is accepted exactly if it enters the first
of them (`Machine.Takes.accepted_iff`), and it takes this one off (`Machine.Ahead.of_turn`).  It follows that
the calls that are accepted in a run are the first phases of the row (`Machine.guarded_turns`) and that each
has all earlier ones behind it (`Machine.preceded_turns`).
-/

namespace HardwareMap

/-- Whether the error is the answer to a phase out of order. -/
def Error.isRefusal : Error → Bool
  | .misuse (.exportOrder ..) | .misuse (.importOrder ..) => true
  | _ => false

theorem Error.label_of_isRefusal {e : Error} (h : e.isRefusal = true) :
    e.label = "InvalidParameter" := by
  unfold isRefusal at h
  split at h
  · rfl
  · rfl
  · cases h

/-- A call as it was made, in a state of the machine and of the world around it, and what came of it. -/
structure Turn (Call State World : Type) where
  call : Call
  before : State × World
  /-- The error that the call answered with, if it did. -/
  fault : Option Error
  after : State × World

/-- Whether the call was answered as one out of order. -/
def Turn.refused {Call State World : Type} (turn : Turn Call State World) : Bool :=
  turn.fault.any Error.isRefusal

/-- A machine that goes through its phases one after the other. -/
structure Machine (Phase Call State World : Type) where
  /-- Where every run starts. -/
  start : Phase
  /-- The phases that are entered by calls. -/
  phases : List Phase
  nodup : (start :: phases).Nodup
  /-- The phase that a call can be made in. -/
  former : Call → Phase
  /-- The phase that a call enters. -/
  next : Call → Phase
  consecutive : ∀ call, ∃ front rest, start :: phases = front ++ former call :: next call :: rest
  /-- Where a run is. -/
  phase : State → Phase
  /-- The answer to a call that would enter the first phase from the second. -/
  refusal : Phase → Phase → Error
  isRefusal_refusal : ∀ next current, (refusal next current).isRefusal = true
  /-- What can go wrong once a call has entered its phase. -/
  Fails : Call → Error → Prop
  not_isRefusal : ∀ {call e}, Fails call e → e.isRefusal = false
  perform : Call → State → World → Option Error × State × World
  perform_of_ne : ∀ {call s}, phase s ≠ former call → ∀ w,
    perform call s w = (some (refusal (next call) (phase s)), s, w)
  phase_perform : ∀ {call s}, phase s = former call → ∀ w,
    phase (perform call s w).2.1 = next call
  fails_of_perform : ∀ {call s}, phase s = former call → ∀ w, ∀ e ∈ (perform call s w).1,
    Fails call e

namespace Machine

variable {Phase Call State World : Type} (m : Machine Phase Call State World)

/-- Makes a call. -/
def turn (s : State) (call : Call) (w : World) : Turn Call State World where
  call
  before := (s, w)
  fault := (m.perform call s w).1
  after := (m.perform call s w).2

/-- Makes calls one after the other.  In between the world may change in any way, so each call comes with
the world that it finds. -/
def turns (s : State) : List (Call × World) → List (Turn Call State World)
  | [] => []
  | (call, w) :: rest => m.turn s call w :: turns (m.turn s call w).after.1 rest

/-- The phases of the calls that were not refused. -/
def entered (turns : List (Turn Call State World)) : List Phase :=
  (turns.filter (!·.refused)).map (m.next ·.call)

/-- The phases are still to be entered, in this order. -/
def Ahead (s : State) (todo : List Phase) : Prop :=
  ∃ front, m.start :: m.phases = front ++ m.phase s :: todo

/-- What there is to say about a turn that finds these phases ahead. -/
structure Takes (todo : List Phase) (turn : Turn Call State World) : Prop where
  /-- The call is accepted exactly if it enters the first of them. -/
  accepted_iff : turn.refused = false ↔ ∃ rest, todo = m.next turn.call :: rest
  /-- An accepted call succeeds or fails by itself. -/
  fails : turn.refused = false → ∀ e ∈ turn.fault, m.Fails turn.call e
  /-- A refused call says where the machine is, and has no effect. -/
  unchanged : turn.refused = true →
    turn.fault = some (m.refusal (m.next turn.call) (m.phase turn.before.1)) ∧
      turn.after = turn.before

variable {m}

theorem entered_cons (turn : Turn Call State World) (rest : List (Turn Call State World)) :
    m.entered (turn :: rest) = m.entered [turn] ++ m.entered rest := by
  rw [entered, List.filter_cons]
  split <;> simp [entered, *]

/-- A call is refused exactly if it finds the machine in another phase than it can be made in. -/
theorem refused_turn (s : State) (call : Call) (w : World) :
    (m.turn s call w).refused = true ↔ m.phase s ≠ m.former call := by
  constructor
  · intro hrefused hphase
    obtain ⟨e, he, hrefusal⟩ := (Option.any_eq_true _ _).1 hrefused
    rw [m.not_isRefusal (m.fails_of_perform hphase w e he)] at hrefusal
    cases hrefusal
  · intro hphase
    simp [Turn.refused, turn, m.perform_of_ne hphase, m.isRefusal_refusal]

/-- No phase stands twice in the row, so what stands around it is known. -/
theorem split_unique {p : Phase} {front rest front' rest' : List Phase}
    (h : m.start :: m.phases = front ++ p :: rest)
    (h' : m.start :: m.phases = front' ++ p :: rest') : front = front' ∧ rest = rest' := by
  have hnodup := m.nodup
  rw [h, List.nodup_middle, List.nodup_cons, List.mem_append, not_or] at hnodup
  obtain ⟨⟨hfront, hrest⟩, -⟩ := hnodup
  obtain ⟨hbefore, -, hbehind⟩ := (List.append_cons_inj_of_notMem hfront hrest).1 (h.symm.trans h')
  exact ⟨hbefore, hbehind⟩

/-- At the start all phases are ahead. -/
theorem ahead_phases {s : State} (h : m.phase s = m.start) : m.Ahead s m.phases :=
  ⟨[], by rw [h]; rfl⟩

namespace Ahead

variable {s : State} {todo : List Phase} (h : m.Ahead s todo)

include h

/-- A call can be made exactly if it enters the first phase that is ahead. -/
theorem phase_eq_iff (call : Call) :
    m.phase s = m.former call ↔ ∃ rest, todo = m.next call :: rest := by
  obtain ⟨front, hrow⟩ := h
  obtain ⟨front', rest', hcall⟩ := m.consecutive call
  constructor
  · intro hphase
    rw [hphase] at hrow
    exact ⟨rest', (split_unique hrow hcall).2⟩
  · rintro ⟨rest, rfl⟩
    rw [List.append_cons] at hrow hcall
    have hlast := (split_unique hrow hcall).1
    exact (List.cons.inj (List.append_inj' hlast rfl).2).1

theorem takes_turn (call : Call) (w : World) : m.Takes todo (m.turn s call w) where
  accepted_iff := by
    rw [Bool.eq_false_iff, ne_eq, refused_turn, not_not]
    exact h.phase_eq_iff call
  fails haccepted := by
    rw [Bool.eq_false_iff, ne_eq, refused_turn, not_not] at haccepted
    exact m.fails_of_perform haccepted w
  unchanged hrefused := by
    rw [refused_turn] at hrefused
    simp [turn, m.perform_of_ne hrefused]

/-- A call takes the phase that it enters from those ahead. -/
theorem of_turn (call : Call) (w : World) :
    ∃ rest, todo = m.entered [m.turn s call w] ++ rest ∧
      m.Ahead (m.turn s call w).after.1 rest := by
  have htakes := h.takes_turn call w
  cases hrefused : (m.turn s call w).refused with
  | true =>
    refine ⟨todo, by simp [entered, hrefused], ?_⟩
    rw [(htakes.unchanged hrefused).2]
    exact h
  | false =>
    obtain ⟨rest, rfl⟩ := htakes.accepted_iff.1 hrefused
    refine ⟨rest, by simp [entered, hrefused], ?_⟩
    have hphase := (h.phase_eq_iff call).2 ⟨rest, rfl⟩
    obtain ⟨front, hrow⟩ := h
    refine ⟨front ++ [m.phase s], ?_⟩
    rw [hrow, turn, m.phase_perform hphase]
    simp

/-- The calls that are accepted in a run enter the first of the phases ahead. -/
theorem entered_turns (calls : List (Call × World)) : m.entered (m.turns s calls) <+: todo := by
  induction calls generalizing s todo with
  | nil => exact List.nil_prefix
  | cons entry calls ih =>
    obtain ⟨rest, rfl, hrest⟩ := h.of_turn entry.1 entry.2
    rw [turns, entered_cons]
    exact (List.prefix_append_right_inj _).2 (ih hrest)

/-- Whatever was made before, a call finds the phases ahead that are left. -/
theorem takes_of_turns {calls : List (Call × World)} {earlier later : List (Turn Call State World)}
    {turn : Turn Call State World} (hturns : m.turns s calls = earlier ++ turn :: later) :
    ∃ rest, todo = m.entered earlier ++ rest ∧ m.Takes rest turn := by
  induction calls generalizing s todo earlier with
  | nil => simp [turns] at hturns
  | cons entry calls ih =>
    cases earlier with
    | nil =>
      obtain ⟨rfl, -⟩ := List.cons.inj hturns
      exact ⟨todo, rfl, h.takes_turn entry.1 entry.2⟩
    | cons first earlier =>
      obtain ⟨rfl, hcalls⟩ := List.cons.inj hturns
      obtain ⟨rest, rfl, hrest⟩ := h.of_turn entry.1 entry.2
      obtain ⟨left, rfl, htakes⟩ := ih hrest hcalls
      refine ⟨left, ?_, htakes⟩
      rw [entered_cons _ earlier, List.append_assoc]

end Ahead

variable (m)

/-- Phases out of this order are refused without effect. -/
structure Guarded (order : List Phase) (turns : List (Turn Call State World)) : Prop where
  /-- The accepted calls enter the first phases, in their order. -/
  entered : m.entered turns <+: order
  nodup : (m.entered turns).Nodup
  /-- A call is refused exactly if it would not enter the next phase. -/
  refused_iff : ∀ earlier turn later, turns = earlier ++ turn :: later →
    (turn.refused = true ↔ ¬ m.entered earlier ++ [m.next turn.call] <+: order)
  /-- A refused call says which phase it would enter from which, and that the parameter is invalid. -/
  fault : ∀ turn ∈ turns, turn.refused = true → ∃ e, turn.fault = some e ∧
    e = m.refusal (m.next turn.call) (m.phase turn.before.1) ∧ e.label = "InvalidParameter"
  /-- A refused call leaves the machine and the world as they were. -/
  after : ∀ turn ∈ turns, turn.refused = true → turn.after = turn.before

/-- An accepted call has all earlier phases behind it. -/
structure Preceded (order : List Phase) (turns : List (Turn Call State World)) : Prop where
  /-- Each phase before the one that is entered was entered by one call, in their order. -/
  entered : ∀ earlier turn later, turns = earlier ++ turn :: later → turn.refused = false →
    ∃ rest, order = m.entered earlier ++ m.next turn.call :: rest
  /-- These calls succeeded or failed by themselves. -/
  fails : ∀ turn ∈ turns, turn.refused = false → ∀ e ∈ turn.fault, m.Fails turn.call e

variable {m} {s : State} (hstart : m.phase s = m.start) (calls : List (Call × World))

include hstart

theorem guarded_turns : m.Guarded m.phases (m.turns s calls) := by
  have hahead := ahead_phases hstart
  have hentered := hahead.entered_turns calls
  have hunchanged : ∀ turn ∈ m.turns s calls, turn.refused = true →
      turn.fault = some (m.refusal (m.next turn.call) (m.phase turn.before.1)) ∧
        turn.after = turn.before := by
    intro turn hturn hrefused
    obtain ⟨earlier, later, hturns⟩ := List.append_of_mem hturn
    obtain ⟨rest, -, htakes⟩ := hahead.takes_of_turns hturns
    exact htakes.unchanged hrefused
  refine ⟨hentered, hentered.sublist.nodup (List.nodup_cons.1 m.nodup).2,
    fun earlier turn later hturns => ?_, fun turn hturn hrefused => ?_,
    fun turn hturn hrefused => (hunchanged turn hturn hrefused).2⟩
  · obtain ⟨rest, hphases, htakes⟩ := hahead.takes_of_turns hturns
    rw [← Bool.not_eq_false, not_iff_not, htakes.accepted_iff, hphases,
      List.prefix_append_right_inj]
    exact ⟨fun ⟨left, h⟩ => ⟨left, h.symm⟩, fun ⟨left, h⟩ => ⟨left, h.symm⟩⟩
  · exact ⟨_, (hunchanged turn hturn hrefused).1, rfl,
      Error.label_of_isRefusal (m.isRefusal_refusal _ _)⟩

theorem preceded_turns : m.Preceded m.phases (m.turns s calls) := by
  have hahead := ahead_phases hstart
  constructor
  · intro earlier turn later hturns haccepted
    obtain ⟨rest, hphases, htakes⟩ := hahead.takes_of_turns hturns
    obtain ⟨left, rfl⟩ := htakes.accepted_iff.1 haccepted
    exact ⟨left, hphases⟩
  · intro turn hturn haccepted
    obtain ⟨earlier, later, hturns⟩ := List.append_of_mem hturn
    obtain ⟨rest, -, htakes⟩ := hahead.takes_of_turns hturns
    exact htakes.fails haccepted

end Machine

end HardwareMap
