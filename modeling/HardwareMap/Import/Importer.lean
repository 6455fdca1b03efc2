import HardwareMap.Import.TreeIndex
import HardwareMap.Layout.PathRecord

/-!
# Running an import phase by phase

An `Importer` checks that a region can hold a component at all, reads its tree and then its paths,
strictly in this order.  A phase entered out of order is refused without effect; a phase that is
entered counts as entered, and what it had read before it failed stays in the graph.
-/

namespace HardwareMap

/-- A computation that reads the bytes of a region into a graph. -/
abbrev Intaking := ReaderT Bytes (EStateM Error Intake)

namespace Intaking

def reading {α : Type} (reader : Reader α) : Intaking α := fun bytes intake =>
  match reader bytes intake.cursor with
  | .ok a cursor => .ok a { intake with cursor }
  | .error e cursor => .error e { intake with cursor }

def adding {α : Type} (add : Graph → Except Error α × Graph) : Intaking α := fun _ intake =>
  match add intake.graph with
  | (.ok a, graph) => .ok a { intake with graph }
  | (.error e, graph) => .error e { intake with graph }

def livePaths : Intaking Nat := fun _ intake => .ok intake.graph.livePaths intake

def repeated (step : Intaking Unit) : (count : Nat) → Intaking Unit
  | 0 => return
  | count + 1 => do
    step
    repeated step count

end Intaking

namespace TreeIndex

/-- The component at the offset that a path names; `start` is where the record of the path is. -/
def endpoint (offsets : SortedMap Nat ComponentId) (start offset : Nat) : Reader ComponentId :=
  match offsets.get? offset with
  | some id => return id
  | none => Reader.fail start (.strayEndpoint offset)

/-- Reads a path with its attributes: its ends, orientation, type and annotations. -/
def readPath (r : Registry) (offsets : SortedMap Nat ComponentId) : Reader DataPath := do
  let start ← Reader.position
  let p ← PathRecord.read
  let source ← endpoint offsets start p.source
  let target ← endpoint offsets start p.target
  let attributes ← Attributes.read r
  return { source, target, orientation := p.orientation, type := p.type,
           bandwidth := p.bandwidth, latency := p.latency, attributes }

/-- Reads a path and adds it to the graph, which counts its live paths in a machine word. -/
def intakePath (r : Registry) (offsets : SortedMap Nat ComponentId) : Intaking Unit := do
  let p ← Intaking.reading (readPath r offsets)
  let live ← Intaking.livePaths
  discard (Intaking.adding fun g =>
    g.addPath p.source p.target p.orientation p.type p.toAnnotations)
  discard (Intaking.reading (Reader.add live 1))

/-- Reads the paths at an offset between the components of an index; answers with their number. -/
def intakePaths (r : Registry) (offsets : SortedMap Nat ComponentId) (start : Nat) :
    Intaking Nat := do
  let count ← Intaking.reading do
    Reader.seek start
    Reader.word UInt64
  Intaking.repeated (intakePath r offsets) count.toNat
  return count.toNat

end TreeIndex

/-- One run of an import. -/
structure Importer where
  registry : Registry := {}
  phase : ImportPhase := .idle

namespace Importer

/-- Goes on from one phase to the next, which is possible only while the import is in the former. -/
def enter (x : Importer) (former next : ImportPhase) : Except Error Importer :=
  if x.phase = former then .ok { x with phase := next }
  else .error (.misuse (.importOrder next x.phase))

/-- Reads into a graph, if the phase can be entered. -/
def intaking {α : Type} (x : Importer) (former next : ImportPhase) (intaking : Intaking α)
    (bytes : Bytes) (intake : Intake) : Except Error α × Importer × Intake :=
  match x.enter former next with
  | .error e => (.error e, x, intake)
  | .ok x =>
    match intaking bytes intake with
    | .ok a intake => (.ok a, x, intake)
    | .error e intake => (.error e, x, intake)

/-- The first phase: the region has to have room for a component. -/
def readHeader (x : Importer) (bytes : Bytes) : Except Error Unit × Importer :=
  match x.enter .idle .readingHeader with
  | .error e => (.error e, x)
  | .ok x =>
    if bytes.length < Component.minSize then
      (.error (.malformed 0 (.noRoomForRoot bytes.length Component.minSize)), x)
    else (.ok (), x)

/-- The second phase: reads the tree at offset 0 into the graph. -/
def readTree (x : Importer) (bytes : Bytes) (intake : Intake) :
    Except Error TreeIndex × Importer × Intake :=
  x.intaking .readingHeader .readingTree
    (fun bytes => TreeIndex.readTasks x.registry bytes [{ offset := 0, parent := none }] {})
    bytes intake

/-- The third phase: reads the paths at `start` between components that were read. -/
def readPaths (x : Importer) (offsets : SortedMap Nat ComponentId) (start : Nat) (bytes : Bytes)
    (intake : Intake) : Except Error Nat × Importer × Intake :=
  x.intaking .readingTree .readingEdges (TreeIndex.intakePaths x.registry offsets start)
    bytes intake

/-- Reads a whole region into a graph of its own, and closes the import.  Answers with the graph
and with where the cursor was left. -/
def run (x : Importer) (bytes : Bytes) (cursor : Nat) : Except Error Graph × Nat :=
  match x.readHeader bytes with
  | (.error e, _) => (.error e, cursor)
  | (.ok (), x) =>
    match x.readTree bytes { graph := .empty, cursor } with
    | (.error e, _, intake) => (.error e, intake.cursor)
    | (.ok index, x, intake) =>
      match x.readPaths index.offsets index.stop bytes intake with
      | (.error e, _, intake) => (.error e, intake.cursor)
      | (.ok _, x, intake) =>
        match x.enter .readingEdges .closed with
        | .error e => (.error e, intake.cursor)
        | .ok _ => (.ok intake.graph, intake.cursor)

end Importer

end HardwareMap
