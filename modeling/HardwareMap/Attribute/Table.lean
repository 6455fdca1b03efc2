import HardwareMap.Attribute.Rule

/-!
# Tables of rules

A table gives attribute names their rules.
-/

namespace HardwareMap

abbrev Table := SortedMap String Rule

def Table.description (t : Table) : String :=
  s!"CodecTable \x7b names: {Value.listText (t.keys.map Text.quoted)} \x7d"

end HardwareMap
