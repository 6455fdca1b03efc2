import HardwareMap.Export.TreeLayout
import HardwareMap.Layout.PathRecord

/-!
# Writing the data paths of a topology

Once a tree is written, every data path registered on one of its components is pending.  A path
whose two ends have a place is resolved and written, one record after the other in ascending order
of the handles; a path with an end outside of the tree is an orphan and is left out.
-/

namespace HardwareMap

/-- Where the ends of a path were written, as far as they were. -/
structure PendingPath where
  source : Option Nat := none
  target : Option Nat := none
deriving DecidableEq

def PendingPath.resolved (p : PendingPath) : Option (Nat × Nat) :=
  match p.source, p.target with
  | some source, some target => some (source, target)
  | _, _ => none

abbrev PendingPaths := SortedMap PathId PendingPath

namespace PendingPaths

/-- Notes the place of one component at every path in a list that it is an end of. -/
def notePaths (g : Graph) (placement : Placement) (pending : PendingPaths) (ids : List PathId) :
    PendingPaths :=
  ids.foldl (fun pending id =>
    match g.path? id with
    | none => pending
    | some path =>
      let slot := (pending.get? id).getD {}
      pending.insert id
        { source := if path.source = placement.component then some placement.offset else slot.source
          target :=
            if path.target = placement.component then some placement.offset else slot.target })
    pending

/-- The paths registered on any of the placed components, each once. -/
def ofPlacements (g : Graph) (placements : List Placement) : PendingPaths :=
  placements.foldl (fun pending placement =>
    notePaths g placement pending (g.pathsOf placement.component .any)) ∅

/-- The resolved paths with the places of their ends, in ascending order of their handles. -/
def resolved (pending : PendingPaths) : List (PathId × Nat × Nat) :=
  pending.entries.filterMap fun (id, slot) => slot.resolved.map (id, ·)

end PendingPaths

/-- A section of paths after it was written. -/
structure PathSection where
  /-- Where the count of paths stands. -/
  offset : Nat
  written : Nat
  /-- Paths left out because an end has no place. -/
  orphaned : Nat
  dropped : List DroppedAttribute := []
deriving DecidableEq

namespace PathSection

/-- Writes a path with its attributes; the path has to exist. -/
def writePath (g : Graph) (r : Registry) (id : PathId) (source target : Nat) :
    Packer (List DroppedAttribute) :=
  match g.path? id with
  | none => throw (.missing (.dataPath id))
  | some path => do
    Packer.writing (PathRecord.ofPath path source target).write
    let names ← path.attributes.write r
    return names.map fun name => { owner := .dataPath id, name }

def writePathList (g : Graph) (r : Registry) :
    List (PathId × Nat × Nat) → Packer (List DroppedAttribute)
  | [] => return []
  | (id, source, target) :: rest => do
    let dropped ← writePath g r id source target
    return dropped ++ (← writePathList g r rest)

end PathSection

/-- Writes the count of the resolved paths and their records, starting at the cursor. -/
def Graph.writePaths (g : Graph) (r : Registry) (pending : PendingPaths) : Packer PathSection := do
  let resolved := pending.resolved
  let offset ← Packer.writing (Writer.count resolved.length)
  let dropped ← PathSection.writePathList g r resolved
  return {
    offset
    written := resolved.length
    orphaned := pending.size - resolved.length
    dropped }

end HardwareMap
