import HardwareMap.Attribute.Value

/-!
# Data paths

A data path relates two components of a topology, across its tree.  It has an orientation and a
type, and it may carry measurements and attributes.
-/

namespace HardwareMap

/-- Whether a data path has a direction. -/
inductive Orientation where
  /-- From source to target. -/
  | oriented
  /-- Source and target are interchangeable. -/
  | bidirectional
deriving DecidableEq, Inhabited

namespace Orientation

def tag : Orientation → UInt32
  | oriented => 16
  | bidirectional => 8

def ofTag? (tag : UInt32) : Option Orientation :=
  if tag = 16 then some oriented else if tag = 8 then some bidirectional else none

theorem ofTag?_tag (o : Orientation) : ofTag? o.tag = some o := by
  cases o <;> rfl

theorem tag_of_ofTag? {tag : UInt32} {o : Orientation} (h : ofTag? tag = some o) :
    o.tag = tag := by
  grind [ofTag?, Orientation.tag]

def name : Orientation → String
  | oriented => "oriented"
  | bidirectional => "bidirectional"

def ofName? (name : String) : Option Orientation :=
  [oriented, bidirectional].find? (·.name == name)

def label : Orientation → String
  | oriented => "Oriented"
  | bidirectional => "Bidirectional"

def ofLabel? (label : String) : Option Orientation :=
  [oriented, bidirectional].find? (·.label == label)

end Orientation

/-- The type of a data path.  Values above that of `coherence` are free for types of one's own. -/
structure PathType where
  code : Int32
deriving DecidableEq

namespace PathType

def none : PathType := ⟨32⟩

def logical : PathType := ⟨64⟩

def physical : PathType := ⟨128⟩

def cachePartition : PathType := ⟨256⟩

/-- Settings of a partition of a graphics processor. -/
def processorPartition : PathType := ⟨512⟩

def transfer : PathType := ⟨1024⟩

/-- A latency from cache to cache. -/
def coherence : PathType := ⟨2048⟩

def all : List PathType :=
  [none, logical, physical, cachePartition, processorPartition, transfer, coherence]

instance : Inhabited PathType := ⟨none⟩

/-- The type of a code, which has to be a signed 32-bit number. -/
def ofInt? (code : Int) : Option PathType :=
  if Int32.minValue.toInt ≤ code ∧ code ≤ Int32.maxValue.toInt then some ⟨Int32.ofInt code⟩ else Option.none

end PathType

/-- Which of a component's lists of data paths to look at. -/
inductive Direction where
  | outgoing
  | incoming
  /-- Outgoing, then those incoming that are not outgoing too. -/
  | any
deriving DecidableEq

/-- Stands for a bandwidth or latency that was not measured: minus one. -/
def unmeasured : Binary64 := ⟨0xbff0000000000000⟩

/-- What may be written on a data path at any time. -/
structure Annotations where
  /-- From source to target. -/
  bandwidth : Binary64 := unmeasured
  /-- Of a load, from source to target. -/
  latency : Binary64 := unmeasured
  attributes : Attributes := ∅
deriving DecidableEq

/-- A relation between two components of one graph. -/
structure DataPath extends Annotations where
  source : ComponentId
  target : ComponentId
  orientation : Orientation
  type : PathType
deriving DecidableEq

namespace DataPath

def touches (p : DataPath) (c : ComponentId) : Bool := p.source == c || p.target == c

/-- Same orientation, type, measurements and attributes, wherever the ends are.  Measurements are
compared bit by bit. -/
def sameContent (a b : DataPath) : Bool :=
  a.orientation == b.orientation && a.type == b.type && a.bandwidth == b.bandwidth &&
    a.latency == b.latency && a.attributes.same b.attributes

/-- Same ends, orientation, type, measurements and attributes.  Measurements are compared as
numbers. -/
def same (a b : DataPath) : Bool :=
  a.source == b.source && a.target == b.target && a.orientation == b.orientation &&
    a.type == b.type && a.bandwidth.same b.bandwidth && a.latency.same b.latency &&
    a.attributes.same b.attributes

end DataPath

end HardwareMap
