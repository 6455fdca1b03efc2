import HardwareMap.Proofs.Export.Admission
import HardwareMap.Proofs.Export.Passes
import HardwareMap.Proofs.Import.RoundTrip

/-!
# Exports with encoders that change their answer

The encoders of a caller may answer every call as they like, so that an estimate says nothing about what
is written later.  An export with them fails only for want of room or for a text with a zero byte.  If it
succeeds then its file is in order: count, lengths and payloads of a section come from one call for each
attribute, and a reader that knows nothing of the encoders finds what they answered while writing
(`Graph.recovered_of_exportTo`).
-/

namespace HardwareMap

section Import

variable {g : Graph} (hwf : g.WellFormed) {r : Registry} (h : r.custom.Uncatalogued)
  {root : ComponentId} (hroot : root < g.size)

include hwf h hroot

/-- What was stored after sizing is read with the catalog alone as the restriction by what is found of the
attributes. -/
theorem Importer.run_eq_recovered {bytes : Bytes} (hlen : bytes.length < UInt64.size) :
    let order := g.subtree root
    let s := g.storedTopology r root 0 (r.callsAfter ((g.sizedOwners order).map (·.2)) ∅)
    Block.Storable s.blocks → bytes.Holds 0 s.stored → ∀ cursor,
      (Importer.run {} bytes cursor).1 =
        .ok (g.restrictBy (fun owner a => a.recovered r (g.callsBefore order owner)) root) := by
  intro order s hstorable hholds cursor
  have hblocks := hwf.stores_blocks hroot 0 h
  have hpaths := hwf.stores_paths hroot 0 h
  have hunpackable : s.Unpackable {} :=
    ⟨fun b hb => (hblocks b hb).unpackable, fun b hb => (hpaths b hb).unpackable⟩
  obtain ⟨index, graph, graph', hrun, hrebuilt, hextended⟩ :=
    run_eq_rebuilt hwf hroot hlen hunpackable hstorable hholds cursor
  rw [hrun]
  exact congrArg Except.ok (hrebuilt.eq_restrictBy hwf hroot 0 _
    (fun b hb => (hblocks b hb).recovered_eq) (fun b hb => (hpaths b hb).recovered_eq) hextended)

end Import

/-- **Encoders may change their answer**: let the names of the caller's table be outside of the catalog,
and let an export be able to go where it should, with a file of the size that is estimated.  It then
fails for want of room or for a text with a zero byte, or it succeeds.  If it succeeds then what it has
written fits into its file behind the header, and whoever imports the file without a table finds the
subtree and the paths inside of it, everything in its order.  Of the attributes of an owner are found
those that the catalog accepts, with their values, and those for which an encoder answered with a payload
when it was called for writing, with the bytes of that payload; the names of all others are reported as
left out.

`Graph.callsBefore` counts the calls before that one, those of sizing and those for the owners written
earlier. -/
theorem Graph.recovered_of_exportTo (list : List Edit) {custom : Table} (hcustom : custom.Uncatalogued)
    {root : ComponentId} (hroot : root < (Graph.empty.edits list).size) {path : String} {t : FileTree}
    (hadmits : t.Admits path)
    (hsize : ∃ estimate, (Exporter.size
      { graph := Graph.empty.edits list, registry := { custom } } root).1 = .ok estimate ∧
        estimate.fileSize < Region.maxFileSize) :
    let g := Graph.empty.edits list
    let r : Registry := { custom }
    let order := g.subtree root
    (∃ e t', g.exportTo path root custom t = (.error e, t') ∧ e.Unwritable) ∨
    ∃ publication t', g.exportTo path root custom t = (.ok publication, t') ∧
      (∃ file, t'.read? path = some file ∧ file.length = publication.report.estimate.fileSize ∧
        headerSize + publication.report.bytesWritten ≤ file.length) ∧
      (∀ path' s, s.read? path' = t'.read? path → importFrom path' ∅ s =
        .ok (g.restrictBy (fun owner a => a.recovered r (g.callsBefore order owner)) root)) ∧
      publication.report.dropped = (g.owners order).flatMap fun owner =>
        (owner.2.lost r (g.callsBefore order owner.1)).map fun name =>
          { owner := owner.1, name } := by
  intro g r order
  have hwf : g.WellFormed := WellFormed.empty.edits list
  cases hexport : g.exportTo path root custom t with
  | mk outcome t' =>
    cases outcome with
    | error e =>
      obtain ⟨estimate, hx, hmax⟩ := hsize
      exact .inl ⟨e, t', rfl, hwf.unwritable_of_exportTo (Prod.ext hx rfl) hmax hadmits hexport⟩
    | ok publication =>
      refine .inr ⟨publication, t', rfl, ?_⟩
      obtain ⟨x, hx, -, hexported, hreported⟩ := hwf.sized_of_exportTo hexport
      rw [Exporter.calls_of_size hx] at hexported hreported
      refine ⟨?_, ?_, hwf.dropped_eq_lost hroot 0 hcustom hreported⟩
      · refine ⟨_, hexported.read?_eq, hexported.length_fileOf, ?_⟩
        rw [hexported.length_fileOf, hexported.bytesWritten_eq]
        exact hexported.length_le
      · obtain ⟨bytes, hlen, hholds, hrun⟩ := hexported.importFrom_eq
        intro path' s hread
        rw [hrun path' ∅ s hread]
        exact Importer.run_eq_recovered hwf hcustom hroot hlen hexported.storable hholds 0

/-- The encoder answers every second call with as many zero bytes as it was called before.  It is called
three times for sizing, so the attribute of the node is written on the fourth call, longer than it was
sized, and that of the path is refused on the fifth. -/
theorem Graph.recovered_of_exportTo_node :
    let g := Graph.empty.edits
      [.addComponent none
          { id := 0, details := .node
            attributes := .ofList [("CATcos", .u64 7), ("vendor", .text "x")] },
        .addComponent (some 0) { id := 1, details := .core }, .connect 1 0 .oriented,
        .writePath 0 fun a => { a with attributes := .ofList [("vendor", .u64 4)] }]
    let custom : Table := .ofList [("vendor",
      { encode := fun calls _ => if calls % 2 = 0 then none else some (Bytes.zeros calls)
        decode := fun _ => none })]
    ∃ publication t g' m, g.exportTo "node" 0 custom {} = (.ok publication, t) ∧
      publication.report.dropped = [⟨.dataPath 0, "vendor"⟩] ∧
      Graph.importFrom "node" ∅ t = .ok g' ∧ g'.member? 0 = some m ∧
      m.attributes = .ofList [("CATcos", .u64 7), ("vendor", .bytes [0, 0, 0])] := by
  intro g custom
  have hwf : g.WellFormed := WellFormed.empty.edits _
  have hroot : 0 < g.size := show 0 < 2 by decide
  have hcustom : custom.Uncatalogued := by
    intro name rule hrule
    obtain rfl : name = "vendor" :=
      congrArg Prod.fst (List.mem_singleton.1 (SortedMap.mem_of_get? hrule))
    decide +kernel
  have hadmits : FileTree.Admits {} "node" := {
    path_ne := by decide
    named := rfl
    staging := FileTree.writableAt_of_vacant (show _ = some ["node.partial"] from rfl) rfl
    syncs := rfl
    target := ⟨["node"], rfl, by decide⟩ }
  have hestimate : (Exporter.size { graph := g, registry := { custom } } 0).1 =
      .ok (.ofBytes 2 105 120) := by decide +kernel
  -- There is room for what is written, though the tree is longer than it was sized.
  obtain ⟨publication, t, hexport⟩ : ∃ publication t,
      g.exportTo "node" 0 custom {} = (.ok publication, t) := by
    let s := g.storedTopology { custom } 0 0
      (Registry.callsAfter { custom } ((g.sizedOwners (g.subtree 0)).map (·.2)) ∅)
    have hx : Exporter.size { graph := g, registry := { custom } } 0 =
        (.ok (.ofBytes 2 105 120), (Exporter.size { graph := g, registry := { custom } } 0).2) :=
      Prod.ext hestimate rfl
    have hstorable : Block.Storable s.blocks := by
      unfold Block.Storable NulFree
      decide +kernel
    have hlength : s.treeSize = 123 ∧ s.pathSize = 56 := by decide +kernel
    have hfits : headerSize + s.stored.length ≤ (Estimate.ofBytes 2 105 120).fileSize := by
      rw [s.length_stored, hlength.1, hlength.2]
      decide
    have hcalls := Exporter.calls_of_size hx
    exact hwf.exists_exportTo_of_fits hx (by decide) (by rw [hcalls]; exact hstorable)
      (by rw [hcalls]; exact hfits) hadmits
  rcases Graph.recovered_of_exportTo _ hcustom hroot hadmits ⟨_, hestimate, by decide⟩ with
    ⟨e, t', herror, -⟩ | ⟨publication', t', hok, -, himport, hdropped⟩
  · cases hexport.symm.trans herror
  · cases hexport.symm.trans hok
    refine ⟨publication, t, _, _, hexport, ?_, himport "node" t rfl, rfl, ?_⟩
    · rw [hdropped]
      decide +kernel
    · decide +kernel

end HardwareMap
