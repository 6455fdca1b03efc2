import HardwareMap.Export.Exporter
import HardwareMap.Proofs.Export.Pending
import HardwareMap.Proofs.Export.Tree

/-!
# Writing the paths, and the whole of an export

Behind the tree stand the number of the paths inside of it and one block for each
(`Graph.appends_writePaths`).  `Exporter.settles_write` puts the two sections together: an export
that was sized appends the bytes of `Graph.storedTopology`, unless there is too little room or a
text with a zero byte in it.
-/

namespace HardwareMap

/-- A path as it is stored: with its attributes after packing. -/
structure PathBlock where
  id : PathId
  path : DataPath
  attributes : PackedAttributes

namespace PathBlock

/-- The blocks of paths in turn, counting the calls made on encoders. -/
def ofPaths (r : Registry) : List (PathId × DataPath) → CallLog → List PathBlock × CallLog
  | [], calls => ([], calls)
  | (id, path) :: rest, calls =>
    let (attributes, calls) := r.packAll path.attributes.entries calls
    let (others, calls) := ofPaths r rest calls
    ({ id, path, attributes } :: others, calls)

/-- Bytes of a block. -/
def size (b : PathBlock) : Nat :=
  PathRecord.size + (Attributes.storedSection b.attributes.packed).length

/-- The stored form of a block. -/
def stored (b : PathBlock) (place : ComponentId → Nat) : Bytes :=
  (PathRecord.ofPath b.path (place b.path.source) (place b.path.target)).stored ++
    Attributes.storedSection b.attributes.packed

theorem length_stored (b : PathBlock) (place : ComponentId → Nat) :
    (b.stored place).length = b.size := by
  rw [stored, List.length_append, PathRecord.length_stored]
  rfl

/-- Bytes of blocks one after the other. -/
def sizes (blocks : List PathBlock) : Nat := (blocks.map size).sum

/-- The stored form of blocks one after the other. -/
def storedList (place : ComponentId → Nat) (blocks : List PathBlock) : Bytes :=
  blocks.flatMap fun b => b.stored place

/-- The stored form of a section of paths. -/
def storedSection (place : ComponentId → Nat) (blocks : List PathBlock) : Bytes :=
  Writer.countBytes blocks.length ++ storedList place blocks

theorem length_storedSection (place : ComponentId → Nat) (blocks : List PathBlock) :
    (storedSection place blocks).length = wordSize + sizes blocks := by
  simp only [storedSection, storedList, List.length_append, Writer.length_countBytes,
    List.length_flatMap, length_stored]
  rfl

/-- The attributes that blocks leave out. -/
def dropped (blocks : List PathBlock) : List DroppedAttribute :=
  blocks.flatMap fun b => b.attributes.dropped.map fun name => { owner := .dataPath b.id, name }

/-- There is a block for every path, in the same order. -/
theorem map_entry_ofPaths (r : Registry) (paths : List (PathId × DataPath)) (calls : CallLog) :
    (ofPaths r paths calls).1.map (fun b => (b.id, b.path)) = paths := by
  induction paths generalizing calls with
  | nil => rfl
  | cons entry rest ih => exact congrArg (entry :: ·) (ih _)

theorem length_ofPaths (r : Registry) (paths : List (PathId × DataPath)) (calls : CallLog) :
    (ofPaths r paths calls).1.length = paths.length := by
  have hlength := congrArg List.length (map_entry_ofPaths r paths calls)
  rwa [List.length_map] at hlength

/-- A block belongs to one of the paths, with its attributes packed after some earlier calls. -/
theorem exists_packAll_of_mem {r : Registry} {paths : List (PathId × DataPath)} {calls : CallLog}
    {b : PathBlock} (hb : b ∈ (ofPaths r paths calls).1) :
    (b.id, b.path) ∈ paths ∧
      ∃ earlier, b.attributes = (r.packAll b.path.attributes.entries earlier).1 := by
  induction paths generalizing calls with
  | nil => cases hb
  | cons entry rest ih =>
    rcases List.mem_cons.1 hb with rfl | hb
    · exact ⟨List.mem_cons_self, calls, rfl⟩
    · obtain ⟨hmem, hfound⟩ := ih hb
      exact ⟨List.mem_cons_of_mem _ hmem, hfound⟩

end PathBlock

namespace PathSection

theorem appends_writePath {g : Graph} (r : Registry) {id : PathId} {path : DataPath}
    (h : g.path? id = some path) (place : ComponentId → Nat) (calls : CallLog) :
    let packing := r.packAll path.attributes.entries calls
    let b : PathBlock := { id, path, attributes := packing.1 }
    AppendsFrom (⟨·, calls⟩) (⟨·, packing.2⟩)
      (writePath g r id (place path.source) (place path.target)) True (b.stored place) fun _ =>
        b.attributes.dropped.map fun name => { owner := .dataPath id, name } := by
  intro packing b
  let record := PathRecord.ofPath path (place path.source) (place path.target)
  have hrecord : AppendsFrom (⟨·, calls⟩) (⟨·, calls⟩) (Packer.writing record.write) True
      record.stored fun _ => () := Packer.appends_writing record.appends_write calls
  have hattributes := (path.attributes.appends_write r calls).map fun names =>
    names.map fun name => (⟨.dataPath id, name⟩ : DroppedAttribute)
  simp only [writePath, h]
  exact (hrecord.seq hattributes).congr and_self_iff rfl fun _ => rfl

theorem appends_writePathList {g : Graph} (r : Registry) (place : ComponentId → Nat)
    {paths : List (PathId × DataPath)} (hlive : ∀ entry ∈ paths, g.path? entry.1 = some entry.2)
    (calls : CallLog) :
    let result := PathBlock.ofPaths r paths calls
    AppendsFrom (⟨·, calls⟩) (⟨·, result.2⟩)
      (writePathList g r (paths.map fun entry =>
        (entry.1, place entry.2.source, place entry.2.target)))
      True (PathBlock.storedList place result.1) fun _ => PathBlock.dropped result.1 := by
  induction paths generalizing calls with
  | nil => exact .pure []
  | cons entry rest ih =>
    intro result
    have hfirst := appends_writePath r (hlive entry List.mem_cons_self) place calls
    have hrest := ih (fun other hother => hlive other (List.mem_cons_of_mem _ hother))
      (r.packAll entry.2.attributes.entries calls).2
    exact (hfirst.bind fun _ => hrest.map fun names => _ ++ names).congr and_self_iff rfl
      fun _ => rfl

end PathSection

/-- Writing the paths that are pending after a tree was placed appends the number of the paths inside
of the tree, and their blocks. -/
theorem Graph.Registered.appends_writePaths {g : Graph} (h : g.Registered) (r : Registry)
    {placements : List Placement} (hnodup : (placements.map (·.component)).Nodup)
    (calls : CallLog) :
    let place (c : ComponentId) : Nat := (Placement.offsetOf? placements c).getD 0
    let pending := PendingPaths.ofPlacements g placements
    let inner := g.innerPaths (placements.map (·.component))
    let result := PathBlock.ofPaths r inner calls
    AppendsFrom (⟨·, calls⟩) (⟨·, result.2⟩) (g.writePaths r pending) True
      (PathBlock.storedSection place result.1) fun start =>
        { offset := start
          written := inner.length
          orphaned := pending.size - inner.length
          dropped := PathBlock.dropped result.1 } := by
  intro place pending inner result
  have hresolved : pending.resolved = inner.map fun entry =>
      (entry.1, place entry.2.source, place entry.2.target) :=
    PendingPaths.resolved_ofPlacements h hnodup
  have hlive : ∀ entry ∈ inner, g.path? entry.1 = some entry.2 := fun entry hentry =>
    (mem_innerPaths.1 hentry).1
  have hlist := PathSection.appends_writePathList r place hlive calls
  have hcount := Packer.appends_writing (Writer.appends_count pending.resolved.length) calls
  have hlength : pending.resolved.length = inner.length := by
    rw [hresolved, List.length_map]
  rw [← hresolved] at hlist
  refine (hcount.bind fun start => hlist.map fun dropped => PathSection.mk start
    pending.resolved.length (pending.size - pending.resolved.length) dropped).congr
      and_self_iff ?_ fun start => ?_
  · rw [PathBlock.storedSection, PathBlock.length_ofPaths, hlength]
  · rw [hlength]

/-! ## The whole export -/

/-- The components of a subtree and the paths inside of it, as an export from an offset on stores
them. -/
structure StoredTopology where
  start : Nat
  blocks : List Block
  paths : List PathBlock

namespace StoredTopology

variable (s : StoredTopology)

/-- Where the record of a component stands. -/
def place (c : ComponentId) : Nat := Block.place s.start s.blocks c

/-- Bytes of the tree. -/
def treeSize : Nat := Block.sizes s.blocks

/-- Bytes of the paths and of their number. -/
def pathSize : Nat := wordSize + PathBlock.sizes s.paths

/-- The bytes of both sections. -/
def stored : Bytes :=
  Block.storedList s.place s.start s.blocks ++ PathBlock.storedSection s.place s.paths

theorem length_stored : s.stored.length = s.treeSize + s.pathSize := by
  rw [stored, List.length_append, Block.length_storedList, PathBlock.length_storedSection]
  rfl

end StoredTopology

/-- What an export of the subtree under `root` stores from an offset on, given the calls made on
encoders before. -/
def Graph.storedTopology (g : Graph) (r : Registry) (root : ComponentId) (start : Nat)
    (calls : CallLog) : StoredTopology :=
  let order := g.subtree root
  let (blocks, calls) := g.blocks r order calls
  { start, blocks, paths := (PathBlock.ofPaths r (g.innerPaths order) calls).1 }

theorem Graph.map_id_paths (g : Graph) (r : Registry) (root : ComponentId) (start : Nat)
    (calls : CallLog) :
    (g.storedTopology r root start calls).paths.map (·.id) =
      (g.innerPaths (g.subtree root)).map (·.1) := by
  have hentries := congrArg (List.map Prod.fst) (PathBlock.map_entry_ofPaths r
    (g.innerPaths (g.subtree root)) (g.blocks r (g.subtree root) calls).2)
  rwa [List.map_map] at hentries

section Blocks

variable {g : Graph} (h : g.WellFormed) (r : Registry) {root : ComponentId} (hroot : root < g.size)
  (start : Nat) (calls : CallLog)

include h hroot

theorem Graph.WellFormed.map_id_blocks :
    (g.storedTopology r root start calls).blocks.map (·.id) = g.subtree root :=
  Block.map_id_blocks r (fun _ => h.toForest.lt_size_of_mem_visits
    (h.toForest.visits_subtree hroot) hroot) calls

theorem Graph.WellFormed.nodup_blocks :
    ((g.storedTopology r root start calls).blocks.map (·.id)).Nodup := by
  rw [h.map_id_blocks r hroot]
  exact h.toForest.nodup_subtree hroot

/-- The root of a stored topology comes first. -/
theorem Graph.WellFormed.blocks_eq_cons :
    ∃ b rest, (g.storedTopology r root start calls).blocks = b :: rest ∧ b.id = root := by
  have hhead := (h.toForest.visits_subtree hroot).head?_eq
  rw [← h.map_id_blocks r hroot start calls] at hhead
  cases hblocks : (g.storedTopology r root start calls).blocks with
  | nil =>
    rw [hblocks] at hhead
    cases hhead
  | cons b rest =>
    rw [hblocks] at hhead
    exact ⟨b, rest, rfl, Option.some.inj hhead⟩

end Blocks

theorem Exporter.settles_writing {α : Type} {x : Exporter} {former : ExportPhase} (next : ExportPhase)
    (hphase : x.phase = former) {packer : Packer α} {w w' : Window} {valid : Prop}
    {len room : Nat} {a : α} {calls : CallLog}
    (h : Settles valid len room (packer ⟨w, x.calls⟩) a ⟨w', calls⟩) :
    (valid → len ≤ room → x.writing former next packer w =
      (.ok a, { x with phase := next, calls }, w')) ∧
    (¬(valid ∧ len ≤ room) → ∃ e x' w'', x.writing former next packer w = (.error e, x', w'') ∧
      (len ≤ room → ∃ t, e = .misuse (.interiorNul t))) := by
  simp only [writing, enter, if_pos hphase]
  refine ⟨fun hv hle => ?_, fun hnot => ?_⟩
  · rw [h.ok hv hle]
  · obtain ⟨e, s', heq, hnul⟩ := h.error hnot
    rw [heq]
    exact ⟨e, _, _, rfl, hnul⟩

/-- An export that was sized appends the stored topology, if its texts can be stored and there is
room for it; and if there is room, only a text makes it fail. -/
theorem Exporter.settles_write {x : Exporter} (h : x.graph.WellFormed) (hphase : x.phase = .sizing)
    {root : ComponentId} (hroot : root < x.graph.size) {w : Window} (hw : w.Writable) :
    let s := x.graph.storedTopology x.registry root w.cursor x.calls
    let layout := TreeLayout.extend {} w.cursor s.blocks
    let paths : PathSection :=
      { offset := w.cursor + s.treeSize
        written := s.paths.length
        orphaned := (PendingPaths.ofPlacements x.graph layout.placements).size - s.paths.length
        dropped := PathBlock.dropped s.paths }
    (Block.Storable s.blocks → s.stored.length ≤ w.remaining →
      ∃ x', x.write root w = (.ok (layout, paths), x', w.append s.stored)) ∧
    (¬(Block.Storable s.blocks ∧ s.stored.length ≤ w.remaining) →
      ∃ e x' w', x.write root w = (.error e, x', w') ∧
        (s.stored.length ≤ w.remaining → ∃ t, e = .misuse (.interiorNul t))) := by
  intro s layout paths
  let order := x.graph.subtree root
  let tree := x.graph.blocks x.registry order x.calls
  let treeBytes := Block.storedList s.place w.cursor s.blocks
  let x₁ : Exporter := { x with phase := .writingTree, calls := tree.2 }
  have hids : s.blocks.map (·.id) = order := h.map_id_blocks x.registry hroot w.cursor x.calls
  have hplacements : layout.placements.map (·.component) = order := by
    simp only [layout, TreeLayout.extend, List.nil_append, Block.map_component_placements, hids]
  let pathBytes := PathBlock.storedSection s.place s.paths
  let inner := PathBlock.ofPaths x.registry (x.graph.innerPaths order) tree.2
  let x₂ : Exporter := { x with phase := .writingEdges, calls := inner.2 }
  have hinner : (x.graph.innerPaths order).length = s.paths.length :=
    (PathBlock.length_ofPaths ..).symm
  have hpaths (w₁ : Window) (hw₁ : w₁.Writable) :
      Settles True pathBytes.length w₁.remaining
        (x.graph.writePaths x.registry (.ofPlacements x.graph layout.placements) ⟨w₁, tree.2⟩)
        { paths with offset := w₁.cursor } ⟨w₁.append pathBytes, inner.2⟩ := by
    have happends := h.toRegistered.appends_writePaths x.registry
      (by rw [hplacements, ← hids]; exact h.nodup_blocks x.registry hroot _ _) tree.2 w₁ hw₁
    rw [hplacements, hinner] at happends
    exact happends
  have htreeLength : treeBytes.length = s.treeSize := Block.length_storedList ..
  have hpathLength : pathBytes.length = s.pathSize := PathBlock.length_storedSection ..
  have hstored : s.stored.length = s.treeSize + s.pathSize := s.length_stored
  have htree := Exporter.settles_writing .writingTree hphase
    (h.toForest.settles_writeTree x.registry hroot hw x.calls)
  by_cases htreeOk : Block.Storable s.blocks ∧ s.treeSize ≤ w.remaining
  · obtain ⟨hvalid, htreeRoom⟩ := htreeOk
    have hfirst : x.writeTree root w = (.ok layout, x₁, w.append treeBytes) :=
      htree.1 hvalid htreeRoom
    rw [← htreeLength] at htreeRoom
    have hw₁ : (w.append treeBytes).Writable := Window.writable_append hw htreeRoom
    have hroom₁ := Window.remaining_append hw htreeRoom
    have hphase₁ : x₁.phase = .writingTree := rfl
    have hsecond := Exporter.settles_writing .writingEdges hphase₁ (hpaths _ hw₁)
    rw [hroom₁, hpathLength, htreeLength] at hsecond
    by_cases hpathRoom : s.pathSize ≤ w.remaining - s.treeSize
    · have hfit : s.stored.length ≤ w.remaining := by omega
      refine ⟨fun _ _ => ?_, fun hnot => absurd ⟨hvalid, hfit⟩ hnot⟩
      have hrun : x₁.writePaths (.ofPlacements x₁.graph layout.placements) (w.append treeBytes) =
          (.ok { paths with offset := (w.append treeBytes).cursor }, x₂,
            (w.append treeBytes).append pathBytes) := hsecond.1 trivial hpathRoom
      have hbytes : (w.append treeBytes).append pathBytes = w.append s.stored :=
        Window.append_append hw hfit
      rw [hbytes, Window.cursor_append, htreeLength] at hrun
      exact ⟨{ x₂ with phase := .closed }, by simp only [write, hfirst, hrun]; rfl⟩
    · have hfit : ¬ s.stored.length ≤ w.remaining := by omega
      refine ⟨fun _ hle => absurd hle hfit, fun _ => ?_⟩
      obtain ⟨e, x', w', hrun, -⟩ := hsecond.2 fun hok => hpathRoom hok.2
      have hrun' : x₁.writePaths (.ofPlacements x₁.graph layout.placements) (w.append treeBytes) =
          (.error e, x', w') := hrun
      exact ⟨e, x', w', by simp only [write, hfirst, hrun'], fun hle => absurd hle hfit⟩
  · obtain ⟨e, x', w', hrun, hnul⟩ := htree.2 htreeOk
    have hfirst : x.writeTree root w = (.error e, x', w') := hrun
    refine ⟨fun hvalid hle => absurd ⟨hvalid, by omega⟩ htreeOk, fun _ => ?_⟩
    have htreeRoom : s.stored.length ≤ w.remaining → s.treeSize ≤ w.remaining := by omega
    exact ⟨e, x', w', by simp only [write, hfirst], fun hle => hnul (htreeRoom hle)⟩

/-- An export that was sized writes either what is stored of its topology or not all of it. -/
theorem Exporter.write_eq_ok_iff (x : Exporter) (h : x.graph.WellFormed) (hphase : x.phase = .sizing)
    {root : ComponentId} (hroot : root < x.graph.size) {w : Window} (hw : w.Writable) (w' : Window)
    (answer : TreeLayout × PathSection) :
    let s := x.graph.storedTopology x.registry root w.cursor x.calls
    let layout := TreeLayout.extend {} w.cursor s.blocks
    (∃ x', x.write root w = (.ok answer, x', w')) ↔
      (Block.Storable s.blocks ∧ s.stored.length ≤ w.remaining) ∧ w' = w.append s.stored ∧
        answer = (layout,
          { offset := w.cursor + s.treeSize
            written := s.paths.length
            orphaned := (PendingPaths.ofPlacements x.graph layout.placements).size - s.paths.length
            dropped := PathBlock.dropped s.paths }) := by
  intro s layout
  obtain ⟨hfits, hfails⟩ := Exporter.settles_write h hphase hroot hw
  by_cases hgood : Block.Storable s.blocks ∧ s.stored.length ≤ w.remaining
  · obtain ⟨x₁, hrun⟩ := hfits hgood.1 hgood.2
    rw [hrun]
    constructor
    · rintro ⟨x', heq⟩
      cases heq
      exact ⟨hgood, rfl, rfl⟩
    · rintro ⟨-, rfl, rfl⟩
      exact ⟨x₁, rfl⟩
  · obtain ⟨e, x₁, w₁, hrun, -⟩ := hfails hgood
    rw [hrun]
    constructor
    · rintro ⟨x', heq⟩
      cases heq
    · rintro ⟨hgood', -⟩
      exact absurd hgood' hgood

end HardwareMap
