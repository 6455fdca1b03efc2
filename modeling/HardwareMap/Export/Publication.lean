import HardwareMap.Export.Exporter
import HardwareMap.Region.Mapped

/-!
# Exporting a topology to a file

An export estimates its size, creates a file of that size under a staging path, writes it, and
renames it to its target.  If any of this fails the staging file is removed and whatever the target
led to before stays.
-/

namespace HardwareMap

/-- The summary of an export. -/
structure ExportReport where
  estimate : Estimate
  /-- Region bytes in use. -/
  bytesWritten : Nat
  /-- Where the count of paths stands in the region. -/
  pathOffset : Nat
  components : Nat
  paths : Nat
  /-- Paths left out because an end lies outside of the subtree. -/
  orphaned : Nat
  /-- Attributes left out because no rule accepts them: those of components, then those of paths. -/
  dropped : List DroppedAttribute
deriving DecidableEq

/-- An exported file as its writer holds it.  The file is complete and found at its path. -/
structure Publication where
  /-- The writer's mapping, until it is closed. -/
  region : Option Region
  path : String
  report : ExportReport

namespace Publication

def isOpen (p : Publication) : Bool := p.region.isSome

/-- Gives the writer's mapping up.  The file stays. -/
def close (p : Publication) : Publication := { p with region := none }

end Publication

/-- Writes the subtree under `root`, and every path between its components, to a new file. -/
def Graph.exportTo (g : Graph) (path : String) (root : ComponentId) (custom : Table)
    (t : FileTree) : Except Error Publication × FileTree :=
  let exporter : Exporter := { graph := g, registry := { custom } }
  match exporter.size root with
  | (.error e, _) => (.error e, t)
  | (.ok estimate, exporter) =>
    match Region.create { path, size := estimate.fileSize } t with
    | (.error e, t) => (.error e, t)
    | (.ok region, t) =>
      let (outcome, _, w) := exporter.write root (region.window t)
      let t := region.store w t
      match outcome with
      | .error e => (.error e, region.discard t)
      | .ok (tree, paths) =>
        match { region with cursor := w.cursor }.publish t with
        | (.error e, region, t) => (.error e, region.discard t)
        | (.ok (), region, t) =>
          let report : ExportReport :=
            { estimate
              bytesWritten := w.cursor
              pathOffset := paths.offset
              components := tree.placements.length
              paths := paths.written
              orphaned := paths.orphaned
              dropped := tree.dropped ++ paths.dropped }
          (.ok { region := some region, path, report }, t)

end HardwareMap
