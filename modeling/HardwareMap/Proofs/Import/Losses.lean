import HardwareMap.Proofs.Attribute.Restored
import HardwareMap.Proofs.Export.Dropped
import HardwareMap.Proofs.Import.Truncation

/-!
# No attribute is lost silently

An attribute of what was exported either comes back or is reported.  Which names come back does not
depend on the rules of the reader: if these refuse a payload then there is no import, and otherwise
every name that was stored is in the map that was read (`Attributes.split_packAll`).
-/

namespace HardwareMap

/-- Of the names of attributes, some were kept and the others were lost. -/
structure Attributes.SplitInto (a kept : Attributes) (lost : String → Prop) : Prop where
  mem_iff : ∀ name, name ∈ a.keys ↔ name ∈ kept.keys ∨ lost name
  disjoint : ∀ name ∈ kept.keys, ¬ lost name

theorem Registry.map_fst_unpackAll {r : Registry} {packed : List (String × Bytes)}
    (h : r.Unpackable packed) : (r.unpackAll packed).map (·.1) = packed.map (·.1) := by
  induction packed with
  | nil => rfl
  | cons record rest ih =>
    obtain ⟨value, hvalue⟩ := Option.isSome_iff_exists.1 (h record List.mem_cons_self)
    have hrest := ih fun other hother => h other (List.mem_cons_of_mem _ hother)
    rw [unpackAll, List.filterMap_cons_some (by rw [hvalue]; rfl), ← unpackAll, List.map_cons, hrest,
      List.map_cons]

/-- The names that come back are those that were packed, whichever rules have values for them. -/
theorem Attributes.keys_ofList_unpackAll (a : Attributes) {r r' : Registry} {calls : CallLog}
    (h : r'.Unpackable (r.packAll a.entries calls).1.packed) :
    SortedMap.keys (.ofList (r'.unpackAll (r.packAll a.entries calls).1.packed)) =
      (r.packAll a.entries calls).1.packed.map (·.1) := by
  have hnames : (a.entries.map (·.1)).Pairwise fun x y => compare x y = .lt :=
    List.pairwise_map.2 a.ascending
  have hpacked := hnames.sublist (r.sublist_packed a.entries calls)
  rw [← Registry.map_fst_unpackAll h] at hpacked ⊢
  rw [SortedMap.keys, SortedMap.entries_ofList (List.pairwise_map.1 hpacked)]

/-- What was packed comes back, and what was left out does not. -/
theorem Attributes.split_packAll (a : Attributes) {r r' : Registry} {calls : CallLog}
    (h : r'.Unpackable (r.packAll a.entries calls).1.packed) :
    a.SplitInto (.ofList (r'.unpackAll (r.packAll a.entries calls).1.packed))
      (· ∈ (r.packAll a.entries calls).1.dropped) := by
  have hperm := r.perm_packAll a.entries calls
  have hnodup := hperm.nodup_iff.2 a.nodup_keys
  refine ⟨fun name => ?_, fun name hkept hlost => ?_⟩
  · rw [a.keys_ofList_unpackAll h, SortedMap.keys, ← hperm.mem_iff, List.mem_append]
  · rw [a.keys_ofList_unpackAll h] at hkept
    exact (List.nodup_append.1 hnodup).2.2 name hkept name hlost rfl

/-! ## What is read of a stored topology -/

namespace Importer

/-- Whatever the rules of a reader, what it reads of a stored topology are the stored blocks, with the
values that some rules have for all of them. -/
theorem rebuilt_of_run {g : Graph} (hwf : g.WellFormed) {r r' : Registry} {root : ComponentId}
    (hroot : root < g.size) {calls : CallLog} {bytes : Bytes} (hlen : bytes.length < UInt64.size)
    {cursor cursor' : Nat} {g' : Graph} (h : run { registry := r' } bytes cursor = (.ok g', cursor')) :
    let s := g.storedTopology r root 0 calls
    Block.Storable s.blocks → bytes.Holds 0 s.stored →
      ∃ r'' index graph, s.Unpackable r'' ∧
        TreeIndex.Rebuilt g r'' root s.place s.blocks s.blocks [] index graph ∧
        graph.Extended (s.paths.map (·.decoded r'' (TreeIndex.number s.blocks))) g' := by
  intro s hstorable hholds
  have hunpackable := s.unpackable_tolerant r'
  have hagain := run_append (r'.tolerant_extends s.names) h []
  rw [List.append_nil] at hagain
  obtain ⟨index, graph, graph', hrun, hrebuilt, hextended⟩ :=
    run_eq_rebuilt hwf hroot hlen hunpackable hstorable hholds cursor
  rw [hagain] at hrun
  cases hrun
  exact ⟨_, index, graph, hunpackable, hrebuilt, hextended⟩

end Importer

namespace TreeIndex.Rebuilt

variable {g : Graph} {r : Registry} {root : ComponentId} {place : ComponentId → Nat}
  {full : List Block} {index : TreeIndex} {graph graph' : Graph} {paths : List DataPath}
  (h : Rebuilt g r root place full full [] index graph) (hextended : graph.Extended paths graph')

include h hextended

theorem exists_member? {i : Nat} {b : Block} (hb : full[i]? = some b) :
    ∃ m, graph'.member? i = some m ∧ m.attributes = (b.decoded r).attributes := by
  have hcontent := (hextended.content?_eq i).trans (h.content?_eq i b hb)
  obtain ⟨m, hm, hcomponent⟩ := Option.map_eq_some_iff.1 hcontent
  exact ⟨m, hm, congrArg Component.attributes hcomponent⟩

theorem toList_paths : graph'.paths.toList = paths.map some := by
  rw [hextended.paths_eq, h.paths_eq]
  rfl

theorem path?_eq (i : Nat) : graph'.path? i = paths[i]? := by
  rw [Graph.path?, ← Array.getElem?_toList, h.toList_paths hextended, List.getElem?_map]
  cases paths[i]? <;> rfl

end TreeIndex.Rebuilt

section Import

variable {g : Graph} (hwf : g.WellFormed) {r : Registry} {root : ComponentId} (hroot : root < g.size)
  {calls : CallLog} {path : String} {report : ExportReport} {t t' : FileTree}
  (hexported : (g.storedTopology r root 0 calls).Exported path report t)
  (hreported : (g.storedTopology r root 0 calls).Reported g report)
  {path' : String} {custom : Table} {g' : Graph} (hread : t'.read? path' = t.read? path)
  (himport : Graph.importFrom path' custom t' = .ok g')

include hwf hroot hexported hread himport

theorem Graph.WellFormed.rebuilt_of_importFrom :
    let s := g.storedTopology r root 0 calls
    ∃ r' index graph, s.Unpackable r' ∧
      TreeIndex.Rebuilt g r' root s.place s.blocks s.blocks [] index graph ∧
      graph.Extended (s.paths.map (·.decoded r' (TreeIndex.number s.blocks))) g' := by
  obtain ⟨bytes, hlen, hholds, hrun⟩ := hexported.importFrom_eq
  rw [hrun path' custom t' hread] at himport
  exact Importer.rebuilt_of_run hwf hroot hlen (Prod.ext himport rfl) hexported.storable hholds

include hreported

/-- The attributes of a component come back with it, but for those that were reported. -/
theorem Graph.WellFormed.split_of_member? {i : Nat} {c : ComponentId} {m : Member}
    (hc : (g.subtree root)[i]? = some c) (hm : g.member? c = some m) :
    ∃ m', g'.member? i = some m' ∧ m.attributes.SplitInto m'.attributes fun name =>
      { owner := .component c, name } ∈ report.dropped := by
  obtain ⟨r', index, graph, hunpackable, hrebuilt, hextended⟩ :=
    hwf.rebuilt_of_importFrom hroot hexported hread himport
  rw [← hwf.map_id_blocks r hroot 0 calls, List.getElem?_map, Option.map_eq_some_iff] at hc
  obtain ⟨b, hb, rfl⟩ := hc
  have hmem := List.mem_of_getElem? hb
  obtain ⟨-, hold, earlier, hpacked⟩ := Block.exists_packAll_of_mem hmem
  obtain rfl := Option.some.inj (hm.symm.trans hold)
  obtain ⟨m', hm', hattributes⟩ := hrebuilt.exists_member? hextended hb
  have hreport := hreported.mem_dropped (hwf.nodup_packings hroot)
    (List.mem_append_left _ (List.mem_map_of_mem hmem))
  have hunpack := hunpackable.blocks b hmem
  refine ⟨m', hm', ?_⟩
  simp only [hreport, hattributes, Block.decoded]
  rw [hpacked] at hunpack ⊢
  exact b.member.attributes.split_packAll hunpack

/-- The attributes of a path come back with it, but for those that were reported. -/
theorem Graph.WellFormed.split_of_innerPaths {i : Nat} {id : PathId} {p : DataPath}
    (hp : (g.innerPaths (g.subtree root))[i]? = some (id, p)) :
    ∃ p', g'.path? i = some p' ∧ p.attributes.SplitInto p'.attributes fun name =>
      { owner := .dataPath id, name } ∈ report.dropped := by
  obtain ⟨r', index, graph, hunpackable, hrebuilt, hextended⟩ :=
    hwf.rebuilt_of_importFrom hroot hexported hread himport
  let s := g.storedTopology r root 0 calls
  have hentries : s.paths.map (fun b => (b.id, b.path)) = g.innerPaths (g.subtree root) :=
    PathBlock.map_entry_ofPaths _ _ _
  rw [← hentries, List.getElem?_map, Option.map_eq_some_iff] at hp
  obtain ⟨b, hb, hentry⟩ := hp
  cases hentry
  have hmem := List.mem_of_getElem? hb
  obtain ⟨-, earlier, hpacked⟩ := PathBlock.exists_packAll_of_mem hmem
  have hreport := hreported.mem_dropped (hwf.nodup_packings hroot)
    (List.mem_append_right _ (List.mem_map_of_mem hmem))
  have hunpack := hunpackable.paths b hmem
  refine ⟨b.decoded r' (TreeIndex.number s.blocks), ?_, ?_⟩
  · rw [hrebuilt.path?_eq hextended, List.getElem?_map, hb]
    rfl
  · simp only [hreport, PathBlock.decoded]
    rw [hpacked] at hunpack ⊢
    exact b.path.attributes.split_packAll hunpack

end Import

/-- **No attribute is lost silently**: what an export reports as left out are, with pure encoders, just
the attributes that the registry refuses, owner by owner: those of the components of the subtree in
their order, then those of the paths inside of it, all by the order of the bytes of their names.

Whoever imports the file, with whichever rules, finds every owner again if the import succeeds.  The
names of its attributes are then those that it had, without those that were reported.  Nothing of this
second part asks for pure encoders. -/
theorem Graph.attributes_accounted (list : List Edit) {custom : Table} {root : ComponentId}
    {path : String} {t t' : FileTree} {publication : Publication}
    (h : (Graph.empty.edits list).exportTo path root custom t = (.ok publication, t')) :
    let g := Graph.empty.edits list
    let r : Registry := { custom }
    let order := g.subtree root
    let dropped := publication.report.dropped
    (custom.Pure → dropped = (g.owners order).flatMap fun owner =>
      (owner.2.entries.filter fun a => (r.pack a.1 a.2 ∅).1.isNone).map fun a =>
        { owner := owner.1, name := a.1 }) ∧
    (∀ owner ∈ g.owners order,
      owner.2.keys.Pairwise fun name name' => Utf8.encode name < Utf8.encode name') ∧
    dropped.Nodup ∧
    ∀ (path' : String) (custom' : Table) (s : FileTree) (g' : Graph),
      s.read? path' = t'.read? path → importFrom path' custom' s = .ok g' →
      g'.size = order.length ∧ g'.paths.size = (g.innerPaths order).length ∧
      (∀ i c m, order[i]? = some c → g.member? c = some m →
        ∃ m', g'.member? i = some m' ∧ m.attributes.SplitInto m'.attributes fun name =>
          { owner := .component c, name } ∈ dropped) ∧
      ∀ i id p, (g.innerPaths order)[i]? = some (id, p) →
        ∃ p', g'.path? i = some p' ∧ p.attributes.SplitInto p'.attributes fun name =>
          { owner := .dataPath id, name } ∈ dropped := by
  intro g r order dropped
  have hwf : g.WellFormed := WellFormed.empty.edits list
  obtain ⟨-, hroot, calls, hexported, hreported⟩ := hwf.reported_of_exportTo h
  refine ⟨?_, ?_, ?_, ?_⟩
  · intro hpure
    have hdropped := hreported.dropped_eq_flatMap
    rw [g.packings_storedTopology hpure, List.flatMap_map] at hdropped
    simp only [Registry.packed_eq (r := { custom }) hpure, List.map_map] at hdropped
    exact hdropped
  · intro owner _
    exact owner.2.keys_ascending
  · refine hreported.nodup_dropped (hwf.nodup_packings hroot) fun owner howner => ?_
    obtain ⟨a, earlier, hpacked⟩ := exists_packAll_of_mem_packings howner
    rw [hpacked]
    exact a.nodup_keys.sublist (Registry.sublist_dropped _ _ _)
  · intro path' custom' s g' hread himport
    obtain ⟨r', index, graph, -, hrebuilt, hextended⟩ :=
      hwf.rebuilt_of_importFrom hroot hexported hread himport
    refine ⟨?_, ?_, ?_, ?_⟩
    · rw [hextended.size_eq, hrebuilt.size_eq, ← List.length_map (·.id),
        hwf.map_id_blocks _ hroot]
    · rw [← Array.length_toList, hrebuilt.toList_paths hextended, List.length_map, List.length_map]
      exact PathBlock.length_ofPaths ..
    · intro i c m hc hm
      exact hwf.split_of_member? hroot hexported hreported hread himport hc hm
    · intro i id p hp
      exact hwf.split_of_innerPaths hroot hexported hreported hread himport hp

/-- A node with an attribute that is stored, one that the catalog does not know and one whose value it
refuses, and a path with an unknown attribute. -/
theorem Graph.attributes_accounted_node :
    let g := Graph.empty.edits
      [.addComponent none
          { id := 0, details := .node
            attributes := .ofList
              [("CATcos", .u64 7), ("vendor", .text "x"), ("CATL3mask", .text "wide")] },
        .addComponent (some 0) { id := 1, details := .core }, .connect 1 0 .oriented,
        .writePath 0 fun a => { a with attributes := .ofList [("lanes", .u64 4)] }]
    ∃ publication t g' m, g.exportTo "node" 0 ∅ {} = (.ok publication, t) ∧
      publication.report.dropped =
        [⟨.component 0, "CATL3mask"⟩, ⟨.component 0, "vendor"⟩, ⟨.dataPath 0, "lanes"⟩] ∧
      Graph.importFrom "node" ∅ t = .ok g' ∧ g'.member? 0 = some m ∧
      "CATcos" ∈ m.attributes.keys ∧ "vendor" ∉ m.attributes.keys := by
  intro g
  have hwf : g.WellFormed := WellFormed.empty.edits _
  have hroot : 0 < g.size := show 0 < 2 by decide
  have hestimate : Estimate.ofSubtree g { custom := ∅ } 0 = .ofBytes 2 105 104 := by decide +kernel
  have htexts : ∀ m ∈ (g.subtree 0).filterMap g.member?, NulFree m.texts := by decide +kernel
  obtain ⟨publication, t, hexport⟩ := hwf.exists_exportTo_of_estimate Table.pure_empty hroot
    hestimate (by decide) (by decide) (by decide) htexts
  have himport := hwf.importFrom_of_exportTo Table.pure_empty Table.decodes_empty hexport
  obtain ⟨hdropped, -, -, hback⟩ := Graph.attributes_accounted _ hexport
  obtain ⟨-, -, hmembers, -⟩ := hback "node" ∅ t _ rfl himport
  obtain ⟨member, hmember, hstored, hleft⟩ :
      ∃ m, g.member? 0 = some m ∧ "CATcos" ∈ m.attributes.keys ∧ "vendor" ∈ m.attributes.keys :=
    ⟨_, rfl, by decide, by decide⟩
  obtain ⟨m, hm, hsplit⟩ := hmembers 0 0 member rfl hmember
  have hreported : publication.report.dropped =
      [⟨.component 0, "CATL3mask"⟩, ⟨.component 0, "vendor"⟩, ⟨.dataPath 0, "lanes"⟩] := by
    rw [hdropped Table.pure_empty]
    decide +kernel
  rw [hreported] at hsplit
  refine ⟨publication, t, _, m, hexport, hreported, himport, hm, ?_, ?_⟩
  · exact ((hsplit.mem_iff "CATcos").1 hstored).resolve_right (by decide)
  · exact fun hkept => hsplit.disjoint "vendor" hkept (by decide)

end HardwareMap
