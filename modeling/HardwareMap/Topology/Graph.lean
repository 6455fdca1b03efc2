import HardwareMap.Error
import HardwareMap.Topology.Component
import HardwareMap.Topology.DataPath

/-!
# Topology graphs

A graph holds components, which form a forest, and data paths between them.  Components and paths
are numbered in the order in which they come; a component stays for good, and the number of a
deleted path is never used again.  Each component lists the paths that leave and reach it: an
oriented path is listed as outgoing at its source and as incoming at its target, a bidirectional
one both ways at both ends.

An operation that changes a graph answers with its result and the graph that it leaves behind, be it
that it succeeds or that it fails.
-/

namespace HardwareMap

/-- A component with its links inside a graph. -/
structure Member extends Component where
  parent : Option ComponentId
  children : List ComponentId := []
  outgoing : List PathId := []
  incoming : List PathId := []
deriving DecidableEq

def Member.same (a b : Member) : Bool :=
  a.toComponent.sameContent b.toComponent && a.parent == b.parent && a.children == b.children &&
    a.outgoing == b.outgoing && a.incoming == b.incoming

/-- Components in a forest, and data paths between them. -/
structure Graph where
  members : Array Member := #[]
  /-- The components without a parent, as they came. -/
  roots : List ComponentId := []
  /-- The path of each number given out; none once it is deleted. -/
  paths : Array (Option DataPath) := #[]
  /-- The number of paths that are not deleted. -/
  livePaths : Nat := 0
deriving DecidableEq, Inhabited

/-- Why a component or path that has to exist is not there. -/
inductive AccessFault where
  | outOfBounds (length index : Nat)
  | deleted (path : PathId)

def AccessFault.message : AccessFault → String
  | .outOfBounds length index =>
    s!"index out of bounds: the len is {length} but the index is {index}"
  | .deleted path => s!"data path #{path} was deleted"

namespace Graph

def empty : Graph := {}

def size (g : Graph) : Nat := g.members.size

/-! ### Components -/

def member? (g : Graph) (id : ComponentId) : Option Member := g.members[id]?

/-- The component of a handle that has to be valid. -/
def member (g : Graph) (id : ComponentId) : Except AccessFault Member :=
  match g.members[id]? with
  | some member => .ok member
  | none => .error (.outOfBounds g.members.size id)

def parent? (g : Graph) (id : ComponentId) : Option ComponentId := (g.member? id).bind (·.parent)

/-- The children of a component, in their order; none for an unknown one. -/
def children (g : Graph) (id : ComponentId) : List ComponentId :=
  match g.member? id with
  | some member => member.children
  | none => []

def root? (g : Graph) : Option ComponentId := g.roots.head?

/-- Fails on a handle of no component. -/
def require (g : Graph) (id : ComponentId) : Except Error Unit :=
  if id < g.members.size then .ok () else .error (.missing (.component id))

/-- Adds a component as the last child of `parent`, or as a root. -/
def addComponent (g : Graph) (parent : Option ComponentId) (c : Component) :
    Except Error ComponentId × Graph :=
  let id := g.members.size
  let members := g.members.push { c with parent }
  match parent with
  | none => (.ok id, { g with members, roots := g.roots ++ [id] })
  | some parent =>
    match g.require parent with
    | .error e => (.error e, g)
    | .ok () =>
      let adopt (m : Member) : Member := { m with children := m.children ++ [id] }
      (.ok id, { g with members := members.modify parent adopt })

/-- Applies a change to the content of a component; its links stay. -/
def modifyComponent (g : Graph) (id : ComponentId) (f : Component → Component) : Graph :=
  { g with members := g.members.modify id fun m => { m with toComponent := f m.toComponent } }

/-- The first child of a component that has a kind and an id. -/
def findChild? (g : Graph) (parent : ComponentId) (kind : Kind) (id : Int32) :
    Option ComponentId :=
  (g.children parent).find? fun child =>
    match g.member? child with
    | some member => member.kind == kind && member.id == id
    | none => false

/-- Takes the first pending component, lists it, and puts its children before the others. -/
def walk (g : Graph) : (steps : Nat) → (pending : List ComponentId) → List ComponentId
  | 0, _ => []
  | _, [] => []
  | steps + 1, id :: pending => id :: g.walk steps (g.children id ++ pending)

/-- The components from `root` down, each before its children and siblings in their order.  A
forest has no more of them than components. -/
def subtree (g : Graph) (root : ComponentId) : List ComponentId :=
  if root < g.members.size then g.walk g.members.size [root] else []

/-- The chain of parents from a component up.  A parent came before its children. -/
def ancestors (g : Graph) (id : ComponentId) : List ComponentId :=
  match g.parent? id with
  | none => []
  | some parent => if parent < id then parent :: g.ancestors parent else [parent]
termination_by id

def depth (g : Graph) (id : ComponentId) : Nat := (g.ancestors id).length

/-! ### Data paths -/

def path? (g : Graph) (id : PathId) : Option DataPath := (g.paths[id]?).join

/-- The path of a handle that has to be valid. -/
def path (g : Graph) (id : PathId) : Except AccessFault DataPath :=
  match g.paths[id]? with
  | none => .error (.outOfBounds g.paths.size id)
  | some none => .error (.deleted id)
  | some (some path) => .ok path

/-- The paths that are not deleted, with their handles in ascending order. -/
def livePathList (g : Graph) : List (PathId × DataPath) :=
  g.paths.toList.zipIdx.filterMap fun (slot, id) => slot.map (id, ·)

/-- The lists of one component that mention a path: first the outgoing, then the incoming. -/
def editLists (out inc : List PathId → List PathId) (m : Member) : Member :=
  { m with outgoing := out m.outgoing, incoming := inc m.incoming }

/-- Applies an edit to every list in which a path between two components is registered. -/
def editRegistrations (members : Array Member) (orientation : Orientation)
    (source target : ComponentId) (edit : List PathId → List PathId) : Array Member :=
  match orientation with
  | .bidirectional =>
    (members.modify source (editLists edit edit)).modify target (editLists edit edit)
  | .oriented => (members.modify source (editLists edit id)).modify target (editLists id edit)

def addPath (g : Graph) (source target : ComponentId) (orientation : Orientation)
    (type : PathType) (notes : Annotations) : Except Error PathId × Graph :=
  match g.require source, g.require target with
  | .error e, _ | .ok (), .error e => (.error e, g)
  | .ok (), .ok () =>
    let id := g.paths.size
    let path : DataPath := { notes with source, target, orientation, type }
    (.ok id,
      { g with
        members := editRegistrations g.members orientation source target (· ++ [id])
        paths := g.paths.push (some path)
        livePaths := g.livePaths + 1 })

/-- Adds a path of no particular type, with nothing measured. -/
def connect (g : Graph) (source target : ComponentId) (orientation : Orientation) :
    Except Error PathId × Graph :=
  g.addPath source target orientation .none {}

/-- Applies a change to what may be written on a path; its ends, orientation and type stay. -/
def modifyPath (g : Graph) (id : PathId) (f : Annotations → Annotations) : Graph :=
  { g with
    paths := g.paths.modify id fun slot =>
      slot.map fun path => { path with toAnnotations := f path.toAnnotations } }

/-- The paths registered on a component in a direction; none for an unknown component. -/
def pathsOf (g : Graph) (id : ComponentId) (direction : Direction) : List PathId :=
  match g.member? id with
  | none => []
  | some member =>
    match direction with
    | .outgoing => member.outgoing
    | .incoming => member.incoming
    | .any =>
      member.incoming.foldl (fun found path => if path ∈ found then found else found ++ [path])
        member.outgoing

/-- The first outgoing path of `source` whose other end is `target`. -/
def findPath? (g : Graph) (source target : ComponentId) : Option PathId :=
  (g.pathsOf source .outgoing).find? fun id =>
    match g.path? id with
    | none => false
    | some path => (if path.source = source then path.target else path.source) == target

/-- Deletes a path from the graph and from every list in which it is registered. -/
def deletePath (g : Graph) (id : PathId) : Except Error DataPath × Graph :=
  -- The slot is emptied before anyone looks at what was in it.
  let emptied : Graph := { g with paths := g.paths.modify id fun _ => none }
  match g.path? id with
  | none => (.error (.missing (.dataPath id)), emptied)
  | some path =>
    (.ok path,
      { emptied with
        members := editRegistrations g.members path.orientation path.source path.target
          (·.filter (· != id))
        livePaths := g.livePaths - 1 })

end Graph

end HardwareMap
