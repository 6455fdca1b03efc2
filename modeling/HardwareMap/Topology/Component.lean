import HardwareMap.Attribute.Value
import HardwareMap.Topology.Kind

/-!
# Components

A component is one piece of hardware: an id, a name, details fixed by its kind, and attributes.
Where it stands in a topology is the business of the graph that holds it.
-/

namespace HardwareMap

/-- The geometry of a cache. -/
structure CacheDetails where
  level : Int32
  /-- Free-form, such as "L3" or "Unified". -/
  type : String
  /-- In bytes. -/
  size : Int64
  ways : Int32
  lineSize : Int32
deriving DecidableEq

/-- The identification of a chip. -/
structure ChipDetails where
  vendor : String
  model : String
  type : Int32
deriving DecidableEq

/-- What a component of each kind has besides an id, a name and attributes. -/
inductive Details where
  | generic
  | thread
  | core
  | cache (cache : CacheDetails)
  /-- A part of a component, such as a group of processors. -/
  | subdivision (type : Int32)
  | numa (size : Int64)
  | chip (chip : ChipDetails)
  | memory (size : Int64) (isVolatile : Bool)
  | storage (size : Int64)
  | node
  | topology
deriving DecidableEq, Inhabited

namespace Details

def kind : Details → Kind
  | generic => .generic
  | thread => .thread
  | core => .core
  | cache _ => .cache
  | subdivision _ => .subdivision
  | numa _ => .numa
  | chip _ => .chip
  | memory .. => .memory
  | storage _ => .storage
  | node => .node
  | topology => .topology

/-- The size in bytes, for the kinds that have one. -/
def size? : Details → Option Int64
  | .cache c => some c.size
  | .numa size | .memory size _ | .storage size => some size
  | _ => none

end Details

/-- A piece of hardware. -/
structure Component where
  /-- Tells siblings of one kind apart. -/
  id : Int32
  name : String := ""
  details : Details
  attributes : Attributes := ∅
deriving DecidableEq

namespace Component

def kind (c : Component) : Kind := c.details.kind

def sameContent (a b : Component) : Bool :=
  a.id == b.id && a.name == b.name && a.details == b.details && a.attributes.same b.attributes

end Component

end HardwareMap
