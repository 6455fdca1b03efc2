import HardwareMap.Layout.ComponentRecord
import HardwareMap.Layout.PathRecord
import HardwareMap.Topology.Graph

/-!
# How large an export becomes

Before anything is written, the bytes that a subtree needs are added up.  A data path is counted at
each of its ends that lies in the subtree, also if the other end lies outside, while it is written
at most once; so an estimate may exceed what is written, and never falls short of it.
-/

namespace HardwareMap

/-- The bytes that an export needs. -/
structure Estimate where
  components : Nat
  /-- Records, attribute sections and child tables. -/
  treeBytes : Nat
  /-- The count of paths and every path record, once per end. -/
  pathBytes : Nat
  /-- Header, tree and paths. -/
  total : Nat
  /-- Length of the file to create: the total in whole pages. -/
  fileSize : Nat
deriving DecidableEq

namespace Estimate

/-- The estimate of so many components, tree bytes and path bytes.  Where their sum or its whole pages
are no machine word, adding them up ends the program. -/
def ofCounts (components treeBytes pathBytes : Nat) : Except Error Estimate := do
  let total := headerSize + treeBytes + pathBytes
  if UInt64.size ≤ total then throw (.crash .sumOverflow)
  let fileSize ← roundToPage (UInt64.ofNat total)
  return { components, treeBytes, pathBytes, total, fileSize := fileSize.toNat }

/-- Bytes of a component with its attributes and its child table. -/
def memberBytes (r : Registry) (m : Member) (calls : CallLog) : Nat × CallLog :=
  let (attributes, calls) := m.attributes.sectionSize r calls
  (m.toComponent.recordSize + attributes + m.children.length * wordSize, calls)

def pathListBytes (g : Graph) (r : Registry) : List PathId → CallLog → Nat × CallLog
  | [], calls => (0, calls)
  | id :: rest, calls =>
    match g.path? id with
    | none => pathListBytes g r rest calls
    | some path =>
      let (size, calls) := path.storedSize r calls
      let (others, calls) := pathListBytes g r rest calls
      (size + others, calls)

/-- Tree bytes and path bytes of the components in a list. -/
def listBytes (g : Graph) (r : Registry) : List ComponentId → CallLog → (Nat × Nat) × CallLog
  | [], calls => ((0, 0), calls)
  | id :: rest, calls =>
    match g.member? id with
    | none => listBytes g r rest calls
    | some member =>
      let (tree, calls) := memberBytes r member calls
      let (paths, calls) := pathListBytes g r (g.pathsOf id .any) calls
      let ((restTree, restPaths), calls) := listBytes g r rest calls
      ((tree + restTree, paths + restPaths), calls)

end Estimate

/-- Adds up what the subtree under `root` needs, counting the calls made on encoders. -/
def Graph.estimate (g : Graph) (r : Registry) (root : ComponentId) (calls : CallLog) :
    Except Error Estimate × CallLog :=
  if root < g.members.size then
    let order := g.subtree root
    let ((tree, paths), calls) := Estimate.listBytes g r order calls
    (Estimate.ofCounts order.length tree (wordSize + paths), calls)
  else (.error (.missing (.root root)), calls)

end HardwareMap
