import HardwareMap.Export.Estimate
import HardwareMap.Export.PathSection

/-!
# Running an export phase by phase

An `Exporter` estimates the size of a subtree, writes its tree and then its paths, strictly in this
order.  A phase entered out of order is refused without effect; a phase that is entered counts as
entered, whether it then succeeds or fails.
-/

namespace HardwareMap

/-- One run of an export. -/
structure Exporter where
  graph : Graph
  registry : Registry := {}
  phase : ExportPhase := .idle
  /-- The calls made so far on the encoders of the caller. -/
  calls : CallLog := ∅

namespace Exporter

/-- Goes on from one phase to the next, which is possible only while the export is in the former. -/
def enter (x : Exporter) (former next : ExportPhase) : Except Error Exporter :=
  if x.phase = former then .ok { x with phase := next }
  else .error (.misuse (.exportOrder next x.phase))

/-- Writes to a window, if the phase can be entered. -/
def writing {α : Type} (x : Exporter) (former next : ExportPhase) (packer : Packer α)
    (w : Window) : Except Error α × Exporter × Window :=
  match x.enter former next with
  | .error e => (.error e, x, w)
  | .ok x =>
    match packer { window := w, calls := x.calls } with
    | .ok a pass => (.ok a, { x with calls := pass.calls }, pass.window)
    | .error e pass => (.error e, { x with calls := pass.calls }, pass.window)

/-- The first phase: estimates what the subtree under `root` needs. -/
def size (x : Exporter) (root : ComponentId) : Except Error Estimate × Exporter :=
  match x.enter .idle .sizing with
  | .error e => (.error e, x)
  | .ok x =>
    let (estimate, calls) := x.graph.estimate x.registry root x.calls
    (estimate, { x with calls })

def writeTree (x : Exporter) (root : ComponentId) (w : Window) :
    Except Error TreeLayout × Exporter × Window :=
  x.writing .sizing .writingTree (x.graph.writeTree x.registry root) w

def writePaths (x : Exporter) (pending : PendingPaths) (w : Window) :
    Except Error PathSection × Exporter × Window :=
  x.writing .writingTree .writingEdges (x.graph.writePaths x.registry pending) w

/-- Writes the subtree under `root` and the paths between its components, and closes the export. -/
def write (x : Exporter) (root : ComponentId) (w : Window) :
    Except Error (TreeLayout × PathSection) × Exporter × Window :=
  match x.writeTree root w with
  | (.error e, x, w) => (.error e, x, w)
  | (.ok tree, x, w) =>
    match x.writePaths (.ofPlacements x.graph tree.placements) w with
    | (.error e, x, w) => (.error e, x, w)
    | (.ok paths, x, w) =>
      match x.enter .writingEdges .closed with
      | .error e => (.error e, x, w)
      | .ok x => (.ok (tree, paths), x, w)

end Exporter

end HardwareMap
