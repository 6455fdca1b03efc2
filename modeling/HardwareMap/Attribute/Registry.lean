import HardwareMap.Attribute.Catalog
import HardwareMap.Error

/-!
# Choosing the rule of an attribute

A registry consults the catalog first and a table of its caller second.  The caller's rules add to
the catalog and never replace it: they are asked only about names and values that the catalog does
not accept.  Since a caller's encoder may answer differently each time, the calls made on it are
counted in a `CallLog`.
-/

namespace HardwareMap

/-- How often the encoder of each of the caller's rules was called. -/
abbrev CallLog := SortedMap String Nat

/-- The rules in force: the catalog, then a table of the caller. -/
structure Registry where
  custom : Table := ∅

namespace Registry

/-- The rules of a name, in the order in which they are tried. -/
def rules (r : Registry) (name : String) : List Rule :=
  (Catalog.table.get? name).toList ++ (r.custom.get? name).toList

/-- The payload of an attribute and the calls counted after it; none if no rule accepts it.  A name
with a zero byte in it cannot be stored, whatever the rules. -/
def pack (r : Registry) (name : String) (value : Value) (calls : CallLog) :
    Option Bytes × CallLog :=
  if Utf8.hasNul name then (none, calls)
  else
    match (Catalog.table.get? name).bind (·.encode 0 value) with
    | some payload => (some payload, calls)
    | none =>
      match r.custom.get? name with
      | none => (none, calls)
      | some rule =>
        let earlier := (calls.get? name).getD 0
        (rule.encode earlier value, calls.insert name (earlier + 1))

/-- Bytes of an attribute record: the terminated name, a length word and the payload. -/
def recordSize (name : String) (payload : Bytes) : Nat :=
  Utf8.storedSize name + 8 + payload.length

/-- Bytes that the record of an attribute takes; none if it would be left out. -/
def recordSize? (r : Registry) (name : String) (value : Value) (calls : CallLog) :
    Option Nat × CallLog :=
  let (payload, calls) := r.pack name value calls
  (payload.map (recordSize name), calls)

/-- The value of a payload found at `offset`.  A name without a rule keeps its bytes; a name with
rules, none of which decodes the payload, is a fault of the file. -/
def unpack (r : Registry) (name : String) (payload : Bytes) (offset : Nat) : Except Error Value :=
  match r.rules name with
  | [] => .ok (.bytes payload)
  | rules =>
    match rules.findSome? (·.decode payload) with
    | some value => .ok value
    | none => .error (.malformed offset (.undecodable name payload.length))

def description (r : Registry) : String :=
  s!"AttributeRegistry \x7b catalog: {Catalog.table.description}, custom: {r.custom.description} \x7d"

end Registry

end HardwareMap
