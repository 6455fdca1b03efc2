/-!
# Kinds of components

The kinds of hardware components, with the tag by which each is stored and the name by which it is
shown.
-/

namespace HardwareMap

/-- The kind of a component. -/
inductive Kind where
  | generic
  | thread
  | core
  | cache
  | subdivision
  | numa
  | chip
  | memory
  | storage
  | node
  | topology
deriving DecidableEq, Inhabited

namespace Kind

def all : List Kind :=
  [generic, thread, core, cache, subdivision, numa, chip, memory, storage, node, topology]

def tag : Kind → UInt64
  | generic => 0
  | thread => 1
  | core => 2
  | cache => 3
  | subdivision => 4
  | numa => 5
  | chip => 6
  | memory => 7
  | storage => 8
  | node => 9
  | topology => 10

def ofTag? (tag : UInt64) : Option Kind := all.find? (·.tag == tag)

theorem ofTag?_tag (kind : Kind) : ofTag? kind.tag = some kind := by
  cases kind <;> rfl

theorem tag_of_ofTag? {tag : UInt64} {kind : Kind} (h : ofTag? tag = some kind) :
    kind.tag = tag := by
  simpa using List.find?_some h

def name : Kind → String
  | generic => "generic"
  | thread => "HW_thread"
  | core => "Core"
  | cache => "Cache"
  | subdivision => "Subdivision"
  | numa => "NUMA"
  | chip => "Chip"
  | memory => "Memory"
  | storage => "Storage"
  | node => "Node"
  | topology => "Topology"

def label : Kind → String
  | generic => "Generic"
  | thread => "Thread"
  | core => "Core"
  | cache => "Cache"
  | subdivision => "Subdivision"
  | numa => "Numa"
  | chip => "Chip"
  | memory => "Memory"
  | storage => "Storage"
  | node => "Node"
  | topology => "Topology"

def ofLabel? (label : String) : Option Kind := all.find? (·.label == label)

end Kind

end HardwareMap
