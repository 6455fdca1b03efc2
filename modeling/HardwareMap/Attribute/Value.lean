import HardwareMap.Ieee.Display
import HardwareMap.SortedMap
import HardwareMap.Text.Quoted
import HardwareMap.Topology.Handle

/-!
# Attribute values

A component or data path carries attributes, named values of a handful of types.  A value of a type
that only its owner understands is `foreign`: it has an identity, and two such values are the same
only if their identities are, whatever they hold.

`Value.same` is the equality of values: numbers compare as numbers, so a NaN is not the same as
itself.  Plain equality of `Value` is finer and compares floating point values bit by bit.
-/

namespace HardwareMap

/-- What a value of a type unknown to the catalog holds. -/
inductive ForeignContent where
  | int64 (value : Int64)
  | bytes (value : Bytes)
deriving DecidableEq

/-- What tells foreign values apart. -/
inductive Identity where
  /-- A value that its owner made, by a number of its own. -/
  | made (serial : Nat)
  /-- A value that an import decoded, by the import, the owner and the name of the attribute. -/
  | decoded (serial : Nat) (owner : AttributeOwner) (name : String)
deriving DecidableEq

/-- A typed attribute value. -/
inductive Value where
  | u64 (value : UInt64)
  | i64 (value : Int64)
  | i32 (value : Int32)
  | f64 (value : Binary64)
  | f32 (value : Binary32)
  | text (value : String)
  /-- Samples, each with its time stamp. -/
  | pairs (samples : List (Int64 × Binary64))
  /-- A number with its unit or label. -/
  | tagged (number : Binary64) (label : String)
  | bytes (value : Bytes)
  /-- A value that only a rule of its owner can store. -/
  | foreign (identity : Identity) (content : ForeignContent)
deriving DecidableEq

namespace Value

def typeName : Value → String
  | .u64 _ => "u64"
  | .i64 _ => "i64"
  | .i32 _ => "i32"
  | .f64 _ => "f64"
  | .f32 _ => "f32"
  | .text _ => "string"
  | .pairs _ => "pair-list"
  | .tagged .. => "tagged"
  | .bytes _ => "bytes"
  | .foreign .. => "opaque"

def u64? : Value → Option UInt64
  | .u64 value => some value
  | _ => none

def i64? : Value → Option Int64
  | .i64 value => some value
  | _ => none

def i32? : Value → Option Int32
  | .i32 value => some value
  | _ => none

def f64? : Value → Option Binary64
  | .f64 value => some value
  | _ => none

def f32? : Value → Option Binary32
  | .f32 value => some value
  | _ => none

def text? : Value → Option String
  | .text value => some value
  | _ => none

def pairs? : Value → Option (List (Int64 × Binary64))
  | .pairs samples => some samples
  | _ => none

def bytes? : Value → Option Bytes
  | .bytes value => some value
  | _ => none

def foreignInt64? : Value → Option Int64
  | .foreign _ (.int64 value) => some value
  | _ => none

/-- Pairwise equality of samples, as numbers. -/
def sameSamples : List (Int64 × Binary64) → List (Int64 × Binary64) → Bool
  | [], [] => true
  | (s, a) :: as, (t, b) :: bs => s == t && a.same b && sameSamples as bs
  | _, _ => false

/-- Equality of values.  Values of different types differ. -/
def same : Value → Value → Bool
  | .u64 a, .u64 b => a == b
  | .i64 a, .i64 b => a == b
  | .i32 a, .i32 b => a == b
  | .f64 a, .f64 b => a.same b
  | .f32 a, .f32 b => a.same b
  | .text a, .text b => a == b
  | .pairs a, .pairs b => sameSamples a b
  | .tagged a x, .tagged b y => a.same b && x == y
  | .bytes a, .bytes b => a == b
  | .foreign a _, .foreign b _ => a == b
  | _, _ => false

def listText (items : List String) : String := "[" ++ ", ".intercalate items ++ "]"

/-- A value with its type spelled out, for diagnostics. -/
def description : Value → String
  | .u64 value => s!"U64({value})"
  | .i64 value => s!"I64({value})"
  | .i32 value => s!"I32({value})"
  | .f64 value => s!"F64({value.text})"
  | .f32 value => s!"F32({value.text})"
  | .text value => s!"Str({Text.quoted value})"
  | .pairs samples =>
    let sample (pair : Int64 × Binary64) : String := s!"({pair.1}, {pair.2.text})"
    s!"PairList({listText (samples.map sample)})"
  | .tagged number label => s!"Tagged({number.text}, {Text.quoted label})"
  | .bytes value => s!"Bytes({listText (value.map toString)})"
  | .foreign .. => "Opaque(..)"

end Value

abbrev Attributes := SortedMap String Value

def Attributes.same (a b : Attributes) : Bool := SortedMap.agree Value.same a b

end HardwareMap
