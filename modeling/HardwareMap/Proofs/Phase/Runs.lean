import HardwareMap.Proofs.Export.Failures
import HardwareMap.Proofs.Export.Tree
import HardwareMap.Proofs.Export.WholePages
import HardwareMap.Proofs.Import.Failures
import HardwareMap.Proofs.Phase.Machine
import HardwareMap.Proofs.Region.Operations
import HardwareMap.Proofs.Topology.Edit

/-!
# Runs of an export and of an import

An export is a machine for sizing, writing a tree and writing paths (`Exporter.machine`), and an import is
one for checking the room of a region, reading a tree and reading paths (`Importer.machine`).  The region
with its cursor, the files and the graph of a caller are the world around them.  Each call may find another
one, so whatever happens between two calls is taken into account.

Whatever calls are made, those that are accepted are the first phases in their order, and the others have no
effect (`refused_without_effect`).  A phase that was entered counts as entered, so an accepted call has the
earlier phases behind it (`earlier_phases_entered`), but these need not have succeeded
(`Exporter.tree_after_failed_sizing`).
-/

namespace HardwareMap

/-- The error of an outcome, if it is one. -/
def Error.of? {α : Type} : Except Error α → Option Error
  | .ok _ => none
  | .error e => some e

/-! ## Exports -/

theorem Error.Unexportable.isRefusal_eq_false {e : Error} (h : e.Unexportable) :
    e.isRefusal = false := by
  cases h <;> rfl

namespace Exporter

/-- What a caller can ask an export for, apart from everything at once. -/
inductive Call where
  | size (root : ComponentId)
  | writeTree (root : ComponentId)
  | writePaths (pending : PendingPaths)

/-- The phase that a call can be made in. -/
def Call.former : Call → ExportPhase
  | size _ => .idle
  | writeTree _ => .sizing
  | writePaths _ => .writingTree

/-- The phase that a call enters. -/
def Call.next : Call → ExportPhase
  | size _ => .sizing
  | writeTree _ => .writingTree
  | writePaths _ => .writingEdges

/-- What can go wrong with a call in its phase. -/
def Call.Fails : Call → Error → Prop
  | size root, e => e = .missing (.root root) ∨ e = .crash .sumOverflow ∨ e = .crash .productOverflow
  | writeTree _, e | writePaths _, e => e.Unexportable

/-- A region, and the files that it is among. -/
abbrev Place := Region × FileTree

/-- Writes to the window of a region, and puts it back. -/
def onRegion {α : Type} (write : Window → Except Error α × Exporter × Window) (place : Place) :
    Option Error × Exporter × Place :=
  let (outcome, x, w) := write (place.1.window place.2)
  (Error.of? outcome, x, { place.1 with cursor := w.cursor }, place.1.store w place.2)

/-- Makes a call on an export and a region. -/
def perform (call : Call) (x : Exporter) (place : Place) : Option Error × Exporter × Place :=
  match call with
  | .size root =>
    let (outcome, x) := x.size root
    (Error.of? outcome, x, place)
  | .writeTree root => onRegion (x.writeTree root) place
  | .writePaths pending => onRegion (x.writePaths pending) place

section Calls

variable {x : Exporter}

theorem writing_of_ne {α : Type} {former : ExportPhase} (h : x.phase ≠ former) (next : ExportPhase)
    (packer : Packer α) (w : Window) :
    x.writing former next packer w = (.error (.misuse (.exportOrder next x.phase)), x, w) := by
  simp [writing, enter, h]

theorem writing_of_eq {α : Type} {former next : ExportPhase} (h : x.phase = former)
    {packer : Packer α} {w : Window} {a : α} {pass : Pass}
    (hpacker : packer { window := w, calls := x.calls } = .ok a pass) :
    x.writing former next packer w =
      (.ok a, { x with phase := next, calls := pass.calls }, pass.window) := by
  simp [writing, enter, h, hpacker]

/-- What is refused leaves the region and all files as they were. -/
theorem onRegion_of_refused {α : Type} {write : Window → Except Error α × Exporter × Window}
    {e : Error} (h : ∀ w, write w = (.error e, x, w)) (place : Place) :
    onRegion write place = (some e, x, place) := by
  simp only [onRegion, h, Region.store_window]
  rfl

/-- What is entered leaves the export in its phase, and fails as its packer can. -/
theorem onRegion_writing {α : Type} {former : ExportPhase} (h : x.phase = former)
    (next : ExportPhase) {packer : Packer α}
    (hpacker : Packer.Confined (fun _ => True) Error.Unexportable packer) (place : Place) :
    (onRegion (x.writing former next packer) place).2.1.phase = next ∧
      ∀ e ∈ (onRegion (x.writing former next packer) place).1, e.Unexportable := by
  have hrun := confined_writing next h hpacker (w := place.1.window place.2) trivial
  unfold onRegion
  split at hrun
  next a x' w' heq =>
    rw [heq]
    exact ⟨hrun.1, by simp [Error.of?]⟩
  next e x' w' heq =>
    rw [heq]
    exact ⟨hrun.1, by simpa [Error.of?] using hrun.2⟩

theorem perform_of_ne {call : Call} (h : x.phase ≠ call.former) (place : Place) :
    perform call x place = (some (.misuse (.exportOrder call.next x.phase)), x, place) := by
  cases call with
  | size root => simp [perform, size, enter, show x.phase ≠ .idle from h, Error.of?, Call.next]
  | writeTree root => exact onRegion_of_refused (writing_of_ne h _ _) place
  | writePaths pending => exact onRegion_of_refused (writing_of_ne h _ _) place

theorem perform_of_eq {call : Call} (h : x.phase = call.former) (place : Place) :
    (perform call x place).2.1.phase = call.next ∧
      ∀ e ∈ (perform call x place).1, call.Fails e := by
  cases call with
  | size root =>
    simp only [perform, size, enter, if_pos (show x.phase = .idle from h)]
    by_cases hroot : root < x.graph.size
    · rw [Graph.estimate_eq_outcome hroot]
      refine ⟨rfl, fun e he => .inr ?_⟩
      cases houtcome : (x.graph.needed x.registry root x.calls).outcome with
      | ok estimate =>
        rw [houtcome] at he
        cases he
      | error error =>
        rw [houtcome] at he
        cases he
        exact Estimate.outcome_eq_error houtcome
    · rw [Graph.estimate, if_neg (show ¬root < x.graph.members.size from hroot)]
      exact ⟨rfl, by simp [Error.of?, Call.Fails]⟩
  | writeTree root =>
    exact onRegion_writing h _ (Graph.confined_writeTree tolerates_any .missing _ _ root) place
  | writePaths pending =>
    exact onRegion_writing h _ (Graph.confined_writePaths tolerates_any _ fun _ _ =>
      .inr (.missing _)) place

end Calls

/-- An export as a machine. -/
def machine : Machine ExportPhase Call Exporter Place where
  start := .idle
  phases := [.sizing, .writingTree, .writingEdges]
  nodup := by decide
  former := Call.former
  next := Call.next
  consecutive
    | .size _ => ⟨[], _, rfl⟩
    | .writeTree _ => ⟨[.idle], _, rfl⟩
    | .writePaths _ => ⟨[.idle, .sizing], _, rfl⟩
  phase := phase
  refusal next current := .misuse (.exportOrder next current)
  isRefusal_refusal _ _ := rfl
  Fails := Call.Fails
  not_isRefusal {call e} h := by
    cases call with
    | size root => rcases h with rfl | rfl | rfl <;> rfl
    | writeTree root => exact h.isRefusal_eq_false
    | writePaths pending => exact h.isRefusal_eq_false
  perform := perform
  perform_of_ne := perform_of_ne
  phase_perform h place := (perform_of_eq h place).1
  fails_of_perform h place := (perform_of_eq h place).2

end Exporter

/-! ## Imports -/

theorem Error.Unimportable.isRefusal_eq_false {e : Error} (h : e.Unimportable) :
    e.isRefusal = false := by
  cases h <;> rfl

namespace Importer

/-- What a caller can ask an import for, apart from everything at once. -/
inductive Call where
  | readHeader
  | readTree
  | readPaths (offsets : SortedMap Nat ComponentId) (start : Nat)

/-- The phase that a call can be made in. -/
def Call.former : Call → ImportPhase
  | readHeader => .idle
  | readTree => .readingHeader
  | readPaths .. => .readingTree

/-- The phase that a call enters. -/
def Call.next : Call → ImportPhase
  | readHeader => .readingHeader
  | readTree => .readingTree
  | readPaths .. => .readingEdges

/-- What can go wrong with a call in its phase. -/
def Call.Fails : Call → Error → Prop
  | readHeader, e => ∃ size, e = .malformed 0 (.noRoomForRoot size Component.minSize)
  | readTree, e | readPaths .., e => e.Unimportable

/-- The bytes of a region, the cursor in it and the graph of a caller. -/
abbrev Place := Bytes × Intake

/-- Reads into the graph of a caller.  The bytes stay. -/
def fromRegion {α : Type} (read : Bytes → Intake → Except Error α × Importer × Intake)
    (place : Place) : Option Error × Importer × Place :=
  let (outcome, x, intake) := read place.1 place.2
  (Error.of? outcome, x, place.1, intake)

/-- Makes a call on an import and a region. -/
def perform (call : Call) (x : Importer) (place : Place) : Option Error × Importer × Place :=
  match call with
  | .readHeader =>
    let (outcome, x) := x.readHeader place.1
    (Error.of? outcome, x, place)
  | .readTree => fromRegion x.readTree place
  | .readPaths offsets start => fromRegion (x.readPaths offsets start) place

section Calls

variable {x : Importer}

theorem fromRegion_of_ne {α : Type} {former : ImportPhase} (h : x.phase ≠ former)
    (next : ImportPhase) (reads : Intaking α) (place : Place) :
    fromRegion (x.intaking former next reads) place =
      (some (.misuse (.importOrder next x.phase)), x, place) := by
  simp [fromRegion, intaking, enter, h, Error.of?]

/-- What is entered leaves the import in its phase, and fails as reading can. -/
theorem fromRegion_intaking {α : Type} {former : ImportPhase} (h : x.phase = former)
    (next : ImportPhase) {reads : Intaking α} (hreads : reads.Confined) (place : Place) :
    (fromRegion (x.intaking former next reads) place).2.1.phase = next ∧
      ∀ e ∈ (fromRegion (x.intaking former next reads) place).1, e.Unimportable := by
  have hrun := hreads place.1 place.2 trivial
  simp only [fromRegion, intaking, enter, if_pos h]
  split at hrun
  next a intake heq =>
    rw [heq]
    exact ⟨rfl, by simp [Error.of?]⟩
  next e intake heq =>
    rw [heq]
    exact ⟨rfl, by simpa [Error.of?] using hrun⟩

theorem perform_of_ne {call : Call} (h : x.phase ≠ call.former) (place : Place) :
    perform call x place = (some (.misuse (.importOrder call.next x.phase)), x, place) := by
  cases call with
  | readHeader =>
    simp [perform, readHeader, enter, show x.phase ≠ .idle from h, Error.of?, Call.next]
  | readTree => exact fromRegion_of_ne h _ (fun bytes => TreeIndex.readTasks _ bytes _ _) place
  | readPaths offsets start => exact fromRegion_of_ne h _ _ place

theorem perform_of_eq {call : Call} (h : x.phase = call.former) (place : Place) :
    (perform call x place).2.1.phase = call.next ∧
      ∀ e ∈ (perform call x place).1, call.Fails e := by
  cases call with
  | readHeader =>
    simp only [perform, readHeader, enter, if_pos (show x.phase = .idle from h)]
    split
    · exact ⟨rfl, by simp [Error.of?, Call.Fails]⟩
    · exact ⟨rfl, by simp [Error.of?]⟩
  | readTree =>
    exact fromRegion_intaking h _ (fun bytes => TreeIndex.unimportable_readTasks _ bytes _ _) place
  | readPaths offsets start =>
    exact fromRegion_intaking h _ (TreeIndex.unimportable_intakePaths _ offsets start) place

end Calls

/-- An import as a machine. -/
def machine : Machine ImportPhase Call Importer Place where
  start := .idle
  phases := [.readingHeader, .readingTree, .readingEdges]
  nodup := by decide
  former := Call.former
  next := Call.next
  consecutive
    | .readHeader => ⟨[], _, rfl⟩
    | .readTree => ⟨[.idle], _, rfl⟩
    | .readPaths .. => ⟨[.idle, .readingHeader], _, rfl⟩
  phase := phase
  refusal next current := .misuse (.importOrder next current)
  isRefusal_refusal _ _ := rfl
  Fails := Call.Fails
  not_isRefusal {call e} h := by
    cases call with
    | readHeader =>
      obtain ⟨size, rfl⟩ := h
      rfl
    | readTree => exact h.isRefusal_eq_false
    | readPaths offsets start => exact h.isRefusal_eq_false
  perform := perform
  perform_of_ne := perform_of_ne
  phase_perform h place := (perform_of_eq h place).1
  fails_of_perform h place := (perform_of_eq h place).2

end Importer

/-! ## Whatever is called -/

/-- **Phases out of order**: of the calls on an export, in any order and number and with whatever
regions and files they find, those that are not refused are the first ones of sizing, writing the tree and
writing the paths; and a refused call leaves the export with its graph, the region with its cursor and all
files as they were.  So it is with the calls on an import, of checking the room, reading the tree and
reading the paths, with whatever bytes, cursors and graphs they find. -/
theorem refused_without_effect :
    (∀ (g : Graph) (r : Registry) (calls : CallLog) (requests : List (Exporter.Call × Exporter.Place)),
      Exporter.machine.Guarded [.sizing, .writingTree, .writingEdges]
        (Exporter.machine.turns { graph := g, registry := r, calls } requests)) ∧
    ∀ (r : Registry) (requests : List (Importer.Call × Importer.Place)),
      Importer.machine.Guarded [.readingHeader, .readingTree, .readingEdges]
        (Importer.machine.turns { registry := r } requests) :=
  ⟨fun _ _ _ requests => Exporter.machine.guarded_turns rfl requests,
    fun _ requests => Importer.machine.guarded_turns rfl requests⟩

/-- Reading the tree has to wait for the check of the room, which is made once, though there is no room. -/
example :
    let place : Importer.Place := ([], { graph := .empty, cursor := 0 })
    (Importer.machine.turns {} [(.readTree, place), (.readHeader, place), (.readHeader, place)]).map
        (·.fault) =
      [some (.misuse (.importOrder .readingTree .idle)),
        some (.malformed 0 (.noRoomForRoot 0 37)),
        some (.misuse (.importOrder .readingHeader .readingHeader))] := by
  decide

/-- **Earlier phases**: a call on an export or on an import is accepted only after all earlier phases were
entered, each by one call and in their order; a call that entered its phase has succeeded, or failed for want
of what it was to size, write or read or of room for it, or ended the program on a size that is no machine
word. -/
theorem earlier_phases_entered :
    (∀ (g : Graph) (r : Registry) (calls : CallLog) (requests : List (Exporter.Call × Exporter.Place)),
      Exporter.machine.Preceded [.sizing, .writingTree, .writingEdges]
        (Exporter.machine.turns { graph := g, registry := r, calls } requests)) ∧
    ∀ (r : Registry) (requests : List (Importer.Call × Importer.Place)),
      Importer.machine.Preceded [.readingHeader, .readingTree, .readingEdges]
        (Importer.machine.turns { registry := r } requests) :=
  ⟨fun _ _ _ requests => Exporter.machine.preceded_turns rfl requests,
    fun _ requests => Importer.machine.preceded_turns rfl requests⟩

/-- The earlier phases need not have succeeded: here sizing fails for want of the root that it was given,
and then the tree under another one is written. -/
theorem Exporter.tree_after_failed_sizing :
    let g := Graph.empty.edits [.addComponent none { id := 0, name := "n0", details := .node }]
    ∃ r t x tree x' w, Region.create { path := "node", size := 64 } {} = (.ok r, t) ∧
      Exporter.size { graph := g } 7 = (.error (.missing (.root 7)), x) ∧
      x.writeTree 0 (r.window t) = (.ok tree, x', w) := by
  intro g
  have hmember : g.member? 0 =
      some { id := 0, name := "n0", details := .node, parent := none } := rfl
  obtain ⟨written, pass, hwrite, htasks⟩ : ∃ written pass,
      WriteTask.writeMember {} 0 none { id := 0, name := "n0", details := .node, parent := none }
        { window := { access := .write, bytes := Bytes.zeros 56 } } = .ok written pass ∧
      written.tasks = [] :=
    ⟨_, _, rfl, rfl⟩
  have hrun : WriteTask.run g {} { component := 0, slot := none }
      { window := { access := .write, bytes := Bytes.zeros 56 } } = .ok written pass := by
    rw [WriteTask.run, hmember]
    exact hwrite
  have htree : g.writeTree {} 0 { window := { access := .write, bytes := Bytes.zeros 56 } } =
      .ok { TreeLayout.add {} written with stop := pass.window.cursor } pass := by
    rw [Graph.writeTree, TreeLayout.runTasks_cons]
    refine (bind_of_ok hrun).trans ?_
    rw [htasks, List.nil_append, TreeLayout.runTasks]
  exact ⟨_, _, _, _, _, _, rfl, rfl, writing_of_eq rfl htree⟩

end HardwareMap
