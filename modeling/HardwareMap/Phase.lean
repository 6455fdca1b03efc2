/-!
# Phases of an export and of an import

Both run strictly in order, from idle to closed.  A phase can be entered from exactly one other.
-/

namespace HardwareMap

/-- How far an export has come. -/
inductive ExportPhase where
  | idle
  | sizing
  | writingTree
  | writingEdges
  | closed
deriving DecidableEq, Inhabited

/-- How far an import has come. -/
inductive ImportPhase where
  | idle
  | readingHeader
  | readingTree
  | readingEdges
  | closed
deriving DecidableEq, Inhabited

def ExportPhase.label : ExportPhase → String
  | .idle => "Idle"
  | .sizing => "Sizing"
  | .writingTree => "WritingTree"
  | .writingEdges => "WritingEdges"
  | .closed => "Closed"

def ImportPhase.label : ImportPhase → String
  | .idle => "Idle"
  | .readingHeader => "ReadingHeader"
  | .readingTree => "ReadingTree"
  | .readingEdges => "ReadingEdges"
  | .closed => "Closed"

end HardwareMap
