import HardwareMap.Proofs.Attribute.Catalogued
import HardwareMap.Proofs.Export.Admission
import HardwareMap.Proofs.Export.Dropped
import HardwareMap.Proofs.Import.RoundTrip

/-!
# What the rules of a caller cannot change

If the catalog accepts all attributes of what is exported then the rules of the caller are not asked at
all, and the bytes that are written do not depend on them (`Graph.storedTopology_of_catalog`).  Neither
does what is read back from these bytes depend on the rules of the reader (`Importer.run_of_catalog`).

Only the length of the file may depend on the rules, since sizing looks at the paths that lead out of
the subtree as well.
-/

namespace HardwareMap

/-! ## What is stored -/

/-- The catalog accepts all attributes that are stored together with some components. -/
def Graph.Catalogued (g : Graph) (order : List ComponentId) : Prop :=
  ∀ owner ∈ g.owners order, owner.2.Catalogued

section Stored

variable {g : Graph} {order : List ComponentId}

theorem Graph.Catalogued.of_member? (h : g.Catalogued order) {c : ComponentId} (hc : c ∈ order)
    {m : Member} (hm : g.member? c = some m) : m.attributes.Catalogued :=
  h (.component c, m.attributes) (List.mem_append_left _
    (List.mem_filterMap.2 ⟨c, hc, by rw [hm]; rfl⟩))

theorem Graph.Catalogued.of_innerPaths (h : g.Catalogued order) {entry : PathId × DataPath}
    (hentry : entry ∈ g.innerPaths order) : entry.2.attributes.Catalogued :=
  h (.dataPath entry.1, entry.2.attributes) (List.mem_append_right _ (List.mem_map_of_mem hentry))

theorem Graph.blocks_of_catalog
    (h : ∀ c ∈ order, ∀ m, g.member? c = some m → m.attributes.Catalogued) (r : Registry)
    (calls : CallLog) : g.blocks r order calls = ((g.blocks {} order ∅).1, calls) := by
  induction order with
  | nil => rfl
  | cons c rest ih =>
    have hrest := ih fun d hd => h d (List.mem_cons_of_mem _ hd)
    cases hm : g.member? c with
    | none =>
      simp only [blocks, hm]
      exact hrest
    | some m =>
      have hpacked := fun r : Registry => r.packAll_of_catalog (h c List.mem_cons_self m hm)
      rw [blocks_cons hm, blocks_cons hm, hpacked r calls, hpacked {} ∅, hrest]

theorem PathBlock.ofPaths_of_catalog {paths : List (PathId × DataPath)}
    (h : ∀ entry ∈ paths, entry.2.attributes.Catalogued) (r : Registry) (calls : CallLog) :
    ofPaths r paths calls = ((ofPaths {} paths ∅).1, calls) := by
  induction paths with
  | nil => rfl
  | cons entry rest ih =>
    have hrest := ih fun other hother => h other (List.mem_cons_of_mem _ hother)
    have hpacked := fun r : Registry => r.packAll_of_catalog (h entry List.mem_cons_self)
    have hcons (r : Registry) (calls : CallLog) :
        let first := r.packAll entry.2.attributes.entries calls
        let others := ofPaths r rest first.2
        ofPaths r (entry :: rest) calls =
          ({ id := entry.1, path := entry.2, attributes := first.1 } :: others.1, others.2) := rfl
    rw [hcons, hcons, hpacked r calls, hpacked {} ∅, hrest]

/-- What is stored does not depend on the rules of the caller. -/
theorem Graph.storedTopology_of_catalog {root : ComponentId} (h : g.Catalogued (g.subtree root))
    (r : Registry) (start : Nat) (calls : CallLog) :
    g.storedTopology r root start calls = g.storedTopology {} root start ∅ := by
  have hblocks := blocks_of_catalog fun c hc m hm => h.of_member? hc hm
  have hpaths := PathBlock.ofPaths_of_catalog fun entry hentry => h.of_innerPaths hentry
  have hcalls : (g.blocks {} (g.subtree root) ∅).2 = ∅ := congrArg Prod.snd (hblocks {} ∅)
  simp only [storedTopology, hcalls]
  rw [hblocks r calls, hpaths r calls]

/-- Nothing is left out of what the catalog accepts. -/
theorem Graph.Catalogued.dropped_eq_nil {root : ComponentId} (h : g.Catalogued (g.subtree root))
    {start : Nat} {calls : CallLog} {report : ExportReport}
    (hreported : (g.storedTopology {} root start calls).Reported g report) : report.dropped = [] := by
  rw [hreported.dropped_eq_flatMap, g.packings_storedTopology Table.pure_empty, List.flatMap_map,
    List.flatMap_eq_nil_iff]
  intro owner howner
  have hnone : owner.2.entries.filter
      (fun entry => (Registry.pack {} entry.1 entry.2 ∅).1.isNone) = [] := by
    refine List.filter_eq_nil_iff.2 fun entry hentry => ?_
    rw [Option.isNone_iff_eq_none, ← Option.not_isSome_iff_eq_none, not_not]
    exact h owner howner entry hentry
  simp only [Registry.packed_eq (r := {}) Table.pure_empty, hnone, List.map_nil]

end Stored

/-! ## What is sized -/

theorem Attributes.sectionSize_le (a : Attributes) (r : Registry) (calls calls' : CallLog) :
    (a.sectionSize {} calls).1 ≤ (a.sectionSize r calls').1 :=
  Nat.add_le_add_left (r.recordSizes_le a.entries calls calls') _

namespace Estimate

theorem pathListBytes_le (g : Graph) (r : Registry) (ids : List PathId) (calls calls' : CallLog) :
    (pathListBytes g {} ids calls).1 ≤ (pathListBytes g r ids calls').1 := by
  induction ids generalizing calls calls' with
  | nil => exact Nat.le_refl 0
  | cons id rest ih =>
    cases hp : g.path? id with
    | none =>
      simp only [pathListBytes, hp]
      exact ih calls calls'
    | some path =>
      simp only [pathListBytes, hp]
      exact Nat.add_le_add (Nat.add_le_add_left (path.attributes.sectionSize_le r _ _) _) (ih _ _)

theorem listBytes_le (g : Graph) (r : Registry) (order : List ComponentId) (calls calls' : CallLog) :
    (listBytes g {} order calls).1.1 ≤ (listBytes g r order calls').1.1 ∧
      (listBytes g {} order calls).1.2 ≤ (listBytes g r order calls').1.2 := by
  induction order generalizing calls calls' with
  | nil => exact ⟨Nat.le_refl 0, Nat.le_refl 0⟩
  | cons c rest ih =>
    cases hm : g.member? c with
    | none =>
      simp only [listBytes, hm]
      exact ih calls calls'
    | some m =>
      simp only [listBytes, hm, memberBytes]
      refine ⟨Nat.add_le_add ?_ (ih _ _).1, Nat.add_le_add (pathListBytes_le g r _ _ _) (ih _ _).2⟩
      exact Nat.add_le_add_right (Nat.add_le_add_left (m.attributes.sectionSize_le r _ _) _) _

end Estimate

/-- With the rules of a caller the estimated file is no smaller than what is needed without. -/
theorem Exporter.total_le_of_size {g : Graph} {r : Registry} {root : ComponentId}
    {estimate : Estimate} {x : Exporter}
    (h : Exporter.size { graph := g, registry := r } root = (.ok estimate, x)) :
    (Estimate.ofSubtree g {} root).total ≤ estimate.fileSize := by
  obtain ⟨rfl, -⟩ := needed_of_size h
  have hbytes := Estimate.listBytes_le g r (g.subtree root) ∅ ∅
  rw [Estimate.listBytes_eq Table.pure_empty] at hbytes
  have htotal : (Estimate.ofSubtree g {} root).total ≤ (g.needed r root ∅).total :=
    Nat.add_le_add (Nat.add_le_add_left hbytes.1 _) (Nat.add_le_add_left hbytes.2 _)
  exact Nat.le_trans htotal (le_wholePages _)

/-! ## What is read -/

/-- What the catalog packed is read as the same graph by all readers. -/
theorem Importer.run_of_catalog {g : Graph} (hwf : g.WellFormed) {root : ComponentId}
    (hroot : root < g.size) {calls : CallLog} {bytes : Bytes} (hlen : bytes.length < UInt64.size) :
    let s := g.storedTopology {} root 0 calls
    Block.Storable s.blocks → bytes.Holds 0 s.stored → ∀ (r : Registry) (cursor : Nat),
      (Importer.run { registry := r } bytes cursor).1 = .ok (g.restrict {} root) := by
  intro s hstorable hholds r cursor
  have hblocks : ∀ b ∈ s.blocks, b.attributes = Registry.packed {} b.member.attributes.entries :=
    fun b hb => (Block.of_mem_blocks Table.pure_empty hb).2.2
  have hpaths : ∀ b ∈ s.paths, b.attributes = Registry.packed {} b.path.attributes.entries := by
    intro b hb
    obtain ⟨-, earlier, hpacked⟩ := PathBlock.exists_packAll_of_mem hb
    exact hpacked.trans (Registry.packAll_eq Table.pure_empty _ earlier)
  have hunpackable : s.Unpackable r := {
    blocks := fun b hb => by
      rw [hblocks b hb]
      exact r.unpackable_packed _
    paths := fun b hb => by
      rw [hpaths b hb]
      exact r.unpackable_packed _ }
  obtain ⟨index, graph, graph', hrun, hrebuilt, hextended⟩ :=
    run_eq_rebuilt hwf hroot hlen hunpackable hstorable hholds cursor
  have hread (a : Attributes) :
      .ofList (r.unpackAll (Registry.packed {} a.entries).packed) = a.restored {} := by
    rw [r.unpackAll_packed, Attributes.ofList_unpackAll Table.pure_empty]
  rw [hrun, Graph.restrict_eq_restrictBy]
  exact congrArg Except.ok (hrebuilt.eq_restrictBy hwf hroot 0 calls
    (fun b hb => (hblocks b hb).symm ▸ hread _) (fun b hb => (hpaths b hb).symm ▸ hread _) hextended)

/-! ## Exports and imports -/

namespace Graph.WellFormed

variable {g : Graph} (hwf : g.WellFormed) {root : ComponentId}
  (hcatalog : g.Catalogued (g.subtree root)) {custom custom' : Table} {path path' : String}
  {t t' s s' : FileTree} {publication other : Publication}

include hwf hcatalog

/-- With two tables the same is written to one window, or not all of it. -/
theorem write_of_catalog (hroot : root < g.size) (custom custom' : Table) (calls calls' : CallLog)
    {w : Window} (hw : w.Writable) (w' : Window) (answer : TreeLayout × PathSection) :
    let x : Exporter := { graph := g, registry := { custom }, phase := .sizing, calls }
    let x' : Exporter :=
      { graph := g, registry := { custom := custom' }, phase := .sizing, calls := calls' }
    (∃ y, x.write root w = (.ok answer, y, w')) ↔ ∃ y, x'.write root w = (.ok answer, y, w') := by
  intro x x'
  have hstored : x.graph.storedTopology x.registry root w.cursor x.calls =
      x'.graph.storedTopology x'.registry root w.cursor x'.calls :=
    (storedTopology_of_catalog hcatalog _ _ _).trans (storedTopology_of_catalog hcatalog _ _ _).symm
  have hwrite := x.write_eq_ok_iff hwf rfl hroot hw w' answer
  rw [hstored] at hwrite
  exact hwrite.trans (x'.write_eq_ok_iff hwf rfl hroot hw w' answer).symm

/-- What is exported with one table is also exported with another, if there may be a file of the size
that is then estimated. -/
theorem exists_exportTo_of_catalog (h : g.exportTo path root custom t = (.ok publication, t'))
    {estimate : Estimate}
    (hsize : (Exporter.size { graph := g, registry := { custom := custom' } } root).1 = .ok estimate)
    (hmax : estimate.fileSize < Region.maxFileSize) :
    ∃ other t'', g.exportTo path root custom' t = (.ok other, t'') := by
  obtain ⟨-, hroot, calls, hexported⟩ := hwf.exported_of_exportTo h
  have hstorable := hexported.storable
  rw [storedTopology_of_catalog hcatalog] at hstorable
  rcases hsized : Exporter.size { graph := g, registry := { custom := custom' } } root with ⟨answer, x⟩
  rw [hsized] at hsize
  obtain rfl : answer = .ok estimate := hsize
  refine hwf.exists_exportTo_of_fits hsized hmax ?_ ?_ (admits_before_exportTo h)
  · rw [storedTopology_of_catalog hcatalog]
    exact hstorable
  · rw [storedTopology_of_catalog hcatalog]
    exact (hwf.storedTopology_le_total Table.pure_empty root 0 ∅).trans
      (Exporter.total_le_of_size hsized)

/-- Exports with two tables write the same bytes and leave nothing out. -/
theorem slice_of_catalog (h : g.exportTo path root custom t = (.ok publication, t'))
    (h' : g.exportTo path' root custom' s = (.ok other, s')) :
    other.report.bytesWritten = publication.report.bytesWritten ∧
      other.report.pathOffset = publication.report.pathOffset ∧
      publication.report.dropped = [] ∧ other.report.dropped = [] ∧
      ∃ file file', t'.read? path = some file ∧ s'.read? path' = some file' ∧
        file'.slice headerSize publication.report.bytesWritten =
          file.slice headerSize publication.report.bytesWritten := by
  obtain ⟨-, hroot, calls, hexported, hreported⟩ := hwf.reported_of_exportTo h
  obtain ⟨-, -, calls', hexported', hreported'⟩ := hwf.reported_of_exportTo h'
  rw [storedTopology_of_catalog hcatalog] at hexported hreported hexported' hreported'
  have hlength : other.report.bytesWritten = publication.report.bytesWritten :=
    hexported'.bytesWritten_eq.trans hexported.bytesWritten_eq.symm
  have hoffset : other.report.pathOffset = publication.report.pathOffset :=
    hexported'.pathOffset_eq.trans hexported.pathOffset_eq.symm
  obtain ⟨file, hread, hslice⟩ := hexported.slice_stored
  obtain ⟨file', hread', hslice'⟩ := hexported'.slice_stored
  rw [hlength] at hslice'
  exact ⟨hlength, hoffset, hcatalog.dropped_eq_nil hreported, hcatalog.dropped_eq_nil hreported',
    file, file', hread, hread', hslice'.trans hslice.symm⟩

/-- With every table the same graph is read back. -/
theorem importFrom_of_catalog (h : g.exportTo path root custom t = (.ok publication, t'))
    (hread : s.read? path' = t'.read? path) (custom' : Table) :
    importFrom path' custom' s = .ok (g.restrict {} root) := by
  obtain ⟨-, hroot, calls, hexported⟩ := hwf.exported_of_exportTo h
  rw [storedTopology_of_catalog hcatalog] at hexported
  obtain ⟨bytes, hlen, hholds, himport⟩ := hexported.importFrom_eq
  rw [himport path' custom' s hread]
  exact Importer.run_of_catalog hwf hroot hlen hexported.storable hholds _ 0

end Graph.WellFormed

/-- **Rules of a caller are conservative**: whatever the registry packs without a table of a caller it
packs to the same bytes with one, and what it unpacks under a name of the catalog is unpacked to the
same value.

So the table does not matter where the catalog accepts all attributes: with every table the same is
written to the same window, or not all of it; where an export succeeds it also does with another
table, as long as the size that is then estimated can be had; all exports that succeed write the same
bytes and leave nothing out; and all imports of their files give the same graph. -/
theorem Graph.caller_rules_conservative (list : List Edit) (root : ComponentId) :
    let g := Graph.empty.edits list
    (∀ (custom : Table) (name : String) (value : Value) (payload : Bytes) (calls calls' : CallLog),
      (Registry.pack {} name value calls).1 = some payload →
        (Registry.pack { custom } name value calls').1 = some payload) ∧
    (∀ (custom : Table) (name : String) (payload : Bytes) (offset : Nat) (value : Value),
      (Catalog.table.get? name).isSome → Registry.unpack {} name payload offset = .ok value →
        Registry.unpack { custom } name payload offset = .ok value) ∧
    (g.Catalogued (g.subtree root) →
      (∀ (custom : Table) (calls calls' : CallLog) (w w' : Window)
        (answer : TreeLayout × PathSection), root < g.size → w.Writable →
        let x : Exporter := { graph := g, registry := { custom }, phase := .sizing, calls }
        let x₀ : Exporter := { graph := g, phase := .sizing, calls := calls' }
        ((∃ x', x.write root w = (.ok answer, x', w')) ↔
          ∃ x', x₀.write root w = (.ok answer, x', w'))) ∧
      (∀ (custom custom' : Table) (path : String) (t t' : FileTree) (publication : Publication)
        (estimate : Estimate), g.exportTo path root custom t = (.ok publication, t') →
        (Exporter.size { graph := g, registry := { custom := custom' } } root).1 = .ok estimate →
        estimate.fileSize < Region.maxFileSize →
        ∃ other t'', g.exportTo path root custom' t = (.ok other, t'')) ∧
      (∀ (custom custom' : Table) (path path' : String) (t t' s s' : FileTree)
        (publication other : Publication), g.exportTo path root custom t = (.ok publication, t') →
        g.exportTo path' root custom' s = (.ok other, s') →
        other.report.bytesWritten = publication.report.bytesWritten ∧
        other.report.pathOffset = publication.report.pathOffset ∧
        publication.report.dropped = [] ∧ other.report.dropped = [] ∧
        ∃ file file', t'.read? path = some file ∧ s'.read? path' = some file' ∧
          file'.slice headerSize publication.report.bytesWritten =
            file.slice headerSize publication.report.bytesWritten) ∧
      ∀ (custom : Table) (path : String) (t t' : FileTree) (publication : Publication),
        g.exportTo path root custom t = (.ok publication, t') →
        ∀ (custom' : Table) (path' : String) (s : FileTree), s.read? path' = t'.read? path →
          importFrom path' custom' s = importFrom path' ∅ s ∧
          importFrom path' custom' s = .ok (g.restrict {} root)) := by
  intro g
  have hwf : g.WellFormed := WellFormed.empty.edits list
  refine ⟨?_, ?_, fun hcatalog => ?_⟩
  · intro custom name value payload calls calls' h
    rw [Registry.pack_of_catalog h]
  · intro custom name payload offset value hname h
    exact Registry.unpack_of_catalog hname h _
  refine ⟨?_, ?_, ?_, ?_⟩
  · intro custom calls calls' w w' answer hroot hw
    exact hwf.write_of_catalog hcatalog hroot custom ∅ calls calls' hw w' answer
  · intro custom custom' path t t' publication estimate h hsize hmax
    exact hwf.exists_exportTo_of_catalog hcatalog h hsize hmax
  · intro custom custom' path path' t t' s s' publication other h h'
    exact hwf.slice_of_catalog hcatalog h h'
  · intro custom path t t' publication h custom' path' s hread
    have himport := hwf.importFrom_of_catalog hcatalog h hread
    exact ⟨(himport custom').trans (himport ∅).symm, himport custom'⟩

/-- A caller has a rule of its own for a name of the catalog, which is never heeded for the value that
the catalog accepts. -/
theorem Graph.caller_rules_conservative_node :
    let custom : Table := .ofList
      [("CATcos", { encode := fun _ _ => some [0], decode := fun _ => some (.u64 0) })]
    let g := Graph.empty.edits
      [.addComponent none { id := 0, details := .node, attributes := .ofList [("CATcos", .u64 7)] }]
    (Registry.pack { custom } "CATcos" (.u64 7) ∅).1 = some [7, 0, 0, 0, 0, 0, 0, 0] ∧
      Registry.unpack { custom } "CATcos" [7, 0, 0, 0, 0, 0, 0, 0] 0 = .ok (.u64 7) ∧
      g.Catalogued (g.subtree 0) ∧
      ∃ publication t other s, g.exportTo "node" 0 ∅ {} = (.ok publication, t) ∧
        g.exportTo "node" 0 custom {} = (.ok other, s) ∧
        other.report.bytesWritten = publication.report.bytesWritten ∧
        Graph.importFrom "node" custom s = .ok (g.restrict {} 0) := by
  intro custom g
  have hwf : g.WellFormed := WellFormed.empty.edits _
  have hroot : 0 < g.size := show 0 < 1 by decide
  have hcustom : custom.Pure := Table.pure_insert Table.pure_empty "CATcos" fun _ _ => rfl
  have hestimate : Estimate.ofSubtree g { custom := ∅ } 0 = .ofBytes 1 60 8 := by decide +kernel
  have hestimate' : Estimate.ofSubtree g { custom } 0 = .ofBytes 1 60 8 := by decide +kernel
  have htexts : ∀ m ∈ (g.subtree 0).filterMap g.member?, NulFree m.texts := by decide +kernel
  have hcatalog : g.Catalogued (g.subtree 0) := by
    unfold Graph.Catalogued Attributes.Catalogued
    decide +kernel
  obtain ⟨publication, t, hexport⟩ := hwf.exists_exportTo_of_estimate Table.pure_empty hroot
    hestimate (by decide) (by decide) (by decide) htexts
  obtain ⟨hpack, hunpack, hsame⟩ := Graph.caller_rules_conservative
    [.addComponent none { id := 0, details := .node, attributes := .ofList [("CATcos", .u64 7)] }] 0
  obtain ⟨-, hexports, hbytes, himports⟩ := hsame hcatalog
  obtain ⟨calls, hsize⟩ := Exporter.size_eq_ok g (r := { custom }) hcustom hroot
    (by rw [hestimate']; decide)
  rw [hestimate'] at hsize
  obtain ⟨other, s, hother⟩ := hexports ∅ custom "node" {} t publication (.ofBytes 1 60 8) hexport
    (by rw [hsize]) (by decide)
  obtain ⟨hlength, -⟩ := hbytes ∅ custom "node" "node" {} t {} s publication other hexport hother
  obtain ⟨-, himport⟩ := himports custom "node" {} s other hother custom "node" s rfl
  exact ⟨hpack custom "CATcos" (.u64 7) _ ∅ ∅ (by decide +kernel),
    hunpack custom "CATcos" _ 0 (.u64 7) (by decide +kernel) (by rfl), hcatalog, publication, t, other,
    s, hexport, hother, hlength, himport⟩

end HardwareMap
