import HardwareMap.Import.Importer
import HardwareMap.Region.Mapped

/-!
# Importing a topology from a file

An import maps the file at a path and rebuilds the topology in it as a graph that does not depend
on the file.  The foreign values that come out of an import are all alike at first;
`Graph.identify` tells them apart by their places.
-/

namespace HardwareMap

def Graph.importFrom (path : String) (custom : Table) (t : FileTree) : Except Error Graph := do
  let region ← Region.openExisting path t
  let bytes ← region.view t
  let importer : Importer := { registry := { custom } }
  (importer.run bytes region.cursor).1

/-- Gives the foreign values among the attributes of an owner identities of their own. -/
def Attributes.identify (a : Attributes) (serial : Nat) (owner : AttributeOwner) : Attributes :=
  a.mapValues fun
    | name, .foreign _ content => .foreign (.decoded serial owner name) content
    | _, value => value

/-- Gives identities of their own to the foreign values that an import added to a graph: those of
the components from number `members` on and of the paths from number `paths` on.  Each import has a
serial number. -/
def Graph.identify (g : Graph) (serial members paths : Nat) : Graph :=
  { g with
    members := g.members.mapIdx fun id member =>
      if id < members then member
      else { member with attributes := member.attributes.identify serial (.component id) }
    paths := g.paths.mapIdx fun id slot =>
      if id < paths then slot
      else slot.map fun path =>
        { path with attributes := path.attributes.identify serial (.dataPath id) } }

end HardwareMap
