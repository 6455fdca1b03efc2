import HardwareMap.Proofs.Export.Sizing
import HardwareMap.Proofs.Text.ByteOrder
import Mathlib.Data.List.Forall2

/-!
# The format of a region

A region is specified by recursion over what it holds: a node is stored from some offset on as its
record, its attributes and a table with the offsets of the nodes in it, which follow one by one, each
with all that is in it.  The paths come last and refer to nodes by their offsets.

The specification knows neither graphs nor handles.  A `Format.Topology` is what is to be stored, with
attributes listed in whichever order, and `Topology.Describes` relates it to a part of a graph.  What
is written for that part is the specified encoding (`Topology.Describes.encode_eq`), although the
writer places a node before it knows where the nodes in it will be.
-/

namespace HardwareMap

namespace Format

/-! ## What a region holds -/

/-- What is stored of a component but those in it. -/
structure Node where
  id : Int32
  name : String
  details : Details
  /-- With different names, in any order. -/
  attributes : List (String × Value)

/-- Trees one after the other: a node, the trees in it, and the trees beside it. -/
inductive Trees where
  | nil
  | cons (node : Node) (inside beside : Trees)

/-- What is stored of a data path.  Its ends are numbered like the nodes, each before those in it. -/
structure Path where
  source : Nat
  target : Nat
  orientation : Orientation
  type : PathType
  bandwidth : Binary64
  latency : Binary64
  /-- With different names, in any order. -/
  attributes : List (String × Value)

/-- What is stored in a region. -/
structure Topology where
  root : Node
  inside : Trees
  paths : List Path

def Topology.trees (t : Topology) : Trees := .cons t.root t.inside .nil

/-! ## How it is stored -/

/-- Attributes in the order of the bytes of their names. -/
def byName (a b : String × Value) : Bool := decide (Utf8.encode a.1 ≤ Utf8.encode b.1)

/-- A section of the attributes that have a payload, by their names. -/
def attributeSection (r : Registry) (attributes : List (String × Value)) : Bytes :=
  Attributes.storedSection <|
    (attributes.mergeSort byName).filterMap fun a => (r.pack a.1 a.2 ∅).1.map (a.1, ·)

/-- A node with a reference to the table of the nodes in it. -/
def Node.encode (r : Registry) (n : Node) (table : ChildTable) : Bytes :=
  Word.toBytes n.details.kind.tag ++ (Word.toBytes n.id ++ (table.stored ++
    (Utf8.stored n.name ++ (n.details.stored ++ attributeSection r n.attributes))))

/-- Bytes of a node up to its table. -/
def Node.size (r : Registry) (n : Node) : Nat :=
  wordSize + 4 + ChildTable.encodedSize + Utf8.storedSize n.name + n.details.encodedSize +
    (attributeSection r n.attributes).length

namespace Trees

/-- The number of trees. -/
def count : Trees → Nat
  | nil => 0
  | cons _ _ beside => beside.count + 1

/-- Bytes of trees. -/
def size (r : Registry) : Trees → Nat
  | nil => 0
  | cons node inside beside =>
    node.size r + inside.count * wordSize + inside.size r + beside.size r

/-- The offsets of the trees that start at an offset: each starts where the one before ends. -/
def bases (r : Registry) : Nat → Trees → List Nat
  | _, nil => []
  | start, cons node inside beside =>
    start :: beside.bases r (start + node.size r + inside.count * wordSize + inside.size r)

/-- The offsets of all nodes, each before those in it. -/
def places (r : Registry) : Nat → Trees → List Nat
  | _, nil => []
  | start, cons node inside beside =>
    let below := start + node.size r + inside.count * wordSize
    start :: (inside.places r below ++ beside.places r (below + inside.size r))

/-- Trees that start at an offset: of each first the node with its table, then the trees in it. -/
def encode (r : Registry) : Nat → Trees → Bytes
  | _, nil => []
  | start, cons node inside beside =>
    let table := start + node.size r
    let below := table + inside.count * wordSize
    node.encode r { offset := table, count := inside.count } ++
      (ChildTable.storedOffsets (inside.bases r below) ++
        (inside.encode r below ++ beside.encode r (below + inside.size r)))

end Trees

/-- A path between nodes at given offsets. -/
def Path.encode (r : Registry) (places : List Nat) (p : Path) : Bytes :=
  PathRecord.stored
    { source := places.getD p.source 0
      target := places.getD p.target 0
      orientation := p.orientation
      type := p.type
      bandwidth := p.bandwidth
      latency := p.latency } ++ attributeSection r p.attributes

/-- The tree of the root from the first byte on, then the number of paths and every path. -/
def Topology.encode (r : Registry) (t : Topology) : Bytes :=
  t.trees.encode r 0 ++ (Writer.countBytes t.paths.length ++
    t.paths.flatMap (Path.encode r (t.trees.places r 0)))

/-! ### Sizes are lengths -/

theorem Node.length_encode (r : Registry) (n : Node) (table : ChildTable) :
    (n.encode r table).length = n.size r := by
  simp only [encode, size, List.length_append, Word.length_toBytes, ChildTable.length_stored,
    Utf8.length_stored, Details.length_stored]
  simp only [Word.width, wordSize]
  omega

theorem Trees.length_bases (r : Registry) (trees : Trees) (start : Nat) :
    (trees.bases r start).length = trees.count := by
  induction trees generalizing start with
  | nil => rfl
  | cons node inside beside _ ih => rw [bases, List.length_cons, ih, count]

theorem Trees.length_encode (r : Registry) (trees : Trees) (start : Nat) :
    (trees.encode r start).length = trees.size r := by
  induction trees generalizing start with
  | nil => rfl
  | cons node inside beside ihInside ihBeside =>
    simp only [encode, size, List.length_append, Node.length_encode,
      ChildTable.length_storedOffsets, length_bases, ihInside, ihBeside, Nat.add_assoc]

/-! ## What describes a graph -/

structure Node.Describes (n : Node) (c : Component) : Prop where
  id_eq : c.id = n.id
  name_eq : c.name = n.name
  details_eq : c.details = n.details
  attributes_perm : n.attributes.Perm c.attributes.entries

/-- The trees are those under some components of a graph, whose nodes are in turn the components in
`order`. -/
inductive Trees.Describe (g : Graph) : Trees → List ComponentId → List ComponentId → Prop
  | nil : Describe g .nil [] []
  | cons {node : Node} {inside beside : Trees} {c : ComponentId} {m : Member}
      {rest below others : List ComponentId} (hm : g.member? c = some m)
      (hnode : node.Describes m.toComponent) (hinside : Describe g inside m.children below)
      (hbeside : Describe g beside rest others) :
      Describe g (.cons node inside beside) (c :: rest) (c :: (below ++ others))

structure Path.Describes (order : List ComponentId) (p : Path) (path : DataPath) : Prop where
  source_eq : order[p.source]? = some path.source
  target_eq : order[p.target]? = some path.target
  orientation_eq : path.orientation = p.orientation
  type_eq : path.type = p.type
  bandwidth_eq : path.bandwidth = p.bandwidth
  latency_eq : path.latency = p.latency
  attributes_perm : p.attributes.Perm path.attributes.entries

/-- The topology is the subtree under a component with the live paths inside of it, these in the
order of their handles. -/
structure Topology.Describes (t : Topology) (g : Graph) (root : ComponentId) : Prop where
  trees : t.trees.Describe g [root] (g.subtree root)
  paths : List.Forall₂ (fun p entry => p.Describes (g.subtree root) entry.2) t.paths
    (g.innerPaths (g.subtree root))

end Format

/-! ## Attributes -/

namespace Format

/-- Entries of a map stand in the order of the bytes of their names. -/
theorem pairwise_byName (a : Attributes) : a.entries.Pairwise fun x y => byName x y = true :=
  a.ascending.imp fun h => decide_eq_true (List.le_of_lt (Utf8.encode_lt_of_compare h))

theorem byName_trans (x y z : String × Value) (hxy : byName x y = true) (hyz : byName y z = true) :
    byName x z = true := by
  simp only [byName, decide_eq_true_eq] at hxy hyz ⊢
  exact List.le_trans hxy hyz

theorem byName_total (x y : String × Value) : (byName x y || byName y x) = true := by
  simp only [byName, Bool.or_eq_true, decide_eq_true_eq]
  exact List.le_total _ _

/-- Entries of a map are determined by the bytes of their names. -/
theorem eq_of_byName {a : Attributes} {x y : String × Value} (hx : x ∈ a.entries)
    (hy : y ∈ a.entries) (hxy : byName x y = true) (hyx : byName y x = true) : x = y := by
  simp only [byName, decide_eq_true_eq] at hxy hyx
  obtain ⟨name, value⟩ := x
  obtain ⟨name', value'⟩ := y
  have hname := Utf8.decode?_encode name
  rw [List.le_antisymm hxy hyx, Utf8.decode?_encode] at hname
  obtain rfl := Option.some.inj hname
  have hvalue := SortedMap.mem_entries.1 hx
  rw [SortedMap.mem_entries.1 hy] at hvalue
  rw [Option.some.inj hvalue]

/-- Sorting brings the entries of a map back into their order. -/
theorem mergeSort_eq {a : Attributes} {attributes : List (String × Value)}
    (h : attributes.Perm a.entries) : attributes.mergeSort byName = a.entries := by
  have hperm : (attributes.mergeSort byName).Perm a.entries :=
    (List.mergeSort_perm attributes byName).trans h
  refine List.Perm.eq_of_pairwise (fun x y hx hy => ?_)
    (List.pairwise_mergeSort byName_trans byName_total attributes) (pairwise_byName a) hperm
  exact eq_of_byName (hperm.subset hx) hy

/-- The section of an owner's attributes does not depend on the order in which they are listed. -/
theorem attributeSection_eq {r : Registry} (hpure : r.custom.Pure) {a : Attributes}
    {attributes : List (String × Value)} (h : attributes.Perm a.entries) :
    attributeSection r attributes =
      Attributes.storedSection (r.packed a.entries).packed := by
  rw [attributeSection, mergeSort_eq h, Registry.packed_eq hpure]

end Format

/-! ## Trees -/

section Blocks

variable {g : Graph} {r : Registry} (hpure : r.custom.Pure)

include hpure

/-- With pure encoders blocks do not depend on those before them. -/
theorem Graph.blocks_append (order others : List ComponentId) (calls : CallLog) :
    (g.blocks r (order ++ others) calls).1 = (g.blocks r order ∅).1 ++ (g.blocks r others ∅).1 := by
  rw [blocks_eq hpure, blocks_eq hpure, blocks_eq hpure, List.filterMap_append]

theorem Graph.blocks_cons_eq {c : ComponentId} {m : Member} (hm : g.member? c = some m)
    (order : List ComponentId) (calls : CallLog) :
    (g.blocks r (c :: order) calls).1 =
      { id := c, member := m, attributes := r.packed m.attributes.entries } ::
        (g.blocks r order ∅).1 := by
  rw [blocks_cons hm, Registry.packAll_eq hpure, blocks_eq hpure, blocks_eq hpure]

end Blocks

namespace Format

section Node

variable {r : Registry} (hpure : r.custom.Pure) {n : Node} {b : Block}
  (h : n.Describes b.member.toComponent)
  (hpacked : b.attributes = r.packed b.member.attributes.entries)

include hpure h hpacked

theorem Node.Describes.tableOffset_eq : b.tableOffset = n.size r := by
  rw [Block.tableOffset, Component.recordSize, h.name_eq, h.details_eq, hpacked,
    ← attributeSection_eq hpure h.attributes_perm, Node.size]

theorem Node.Describes.size_eq :
    b.size = n.size r + b.member.children.length * wordSize := by
  rw [Block.size, h.tableOffset_eq hpure hpacked]

/-- A block is the encoding of its node, and the table of the offsets of those in it. -/
theorem Node.Describes.stored_eq (place : ComponentId → Nat) (start : Nat) :
    b.stored place start =
      n.encode r { offset := start + n.size r, count := b.member.children.length } ++
        ChildTable.storedOffsets (b.member.children.map place) := by
  rw [Block.stored, Block.storedAround, Block.table, h.tableOffset_eq hpure hpacked, Node.encode,
    ← h.details_eq, ← h.id_eq, ← h.name_eq, attributeSection_eq hpure h.attributes_perm, hpacked,
    Component.head, Component.tail, Component.kind]
  simp only [List.append_assoc]

end Node

namespace Trees.Describe

variable {g : Graph} {trees : Trees} {ids order : List ComponentId}

theorem count_eq (h : Describe g trees ids order) : trees.count = ids.length := by
  induction h with
  | nil => rfl
  | cons _ _ _ _ _ ih => rw [count, ih, List.length_cons]

variable {r : Registry} (hpure : r.custom.Pure) (h : Describe g trees ids order)

include hpure h

/-- The blocks of the components that trees describe are as long as the trees. -/
theorem sizes_eq : Block.sizes (g.blocks r order ∅).1 = trees.size r := by
  induction h with
  | nil => rfl
  | @cons node inside beside c m rest below others hm hnode hinside hbeside ihInside ihBeside =>
    let b : Block := { id := c, member := m, attributes := r.packed m.attributes.entries }
    have hsize : b.size = node.size r + inside.count * wordSize := by
      rw [hinside.count_eq]
      exact hnode.size_eq hpure rfl
    rw [Graph.blocks_cons_eq hpure hm, Graph.blocks_append hpure, ← List.singleton_append,
      Block.sizes_append, Block.sizes_append, ihInside, ihBeside, Trees.size, ← hsize, Nat.add_assoc]
    rfl

/-- Where the blocks of the described components are placed one after the other from an offset on,
there are the roots and the nodes of the trees, and the blocks are stored as the trees are encoded. -/
theorem encode_eq {place : ComponentId → Nat} {start : Nat}
    (hplaced : Block.Placed place start (g.blocks r order ∅).1) :
    ids.map place = trees.bases r start ∧ order.map place = trees.places r start ∧
      Block.storedList place start (g.blocks r order ∅).1 = trees.encode r start := by
  induction h generalizing start with
  | nil => exact ⟨rfl, rfl, rfl⟩
  | @cons node inside beside c m rest below others hm hnode hinside hbeside ihInside ihBeside =>
    let b : Block := { id := c, member := m, attributes := r.packed m.attributes.entries }
    have hnext : start + b.size = start + node.size r + inside.count * wordSize := by
      rw [hinside.count_eq, Nat.add_assoc]
      exact congrArg (start + ·) (hnode.size_eq hpure rfl)
    rw [Graph.blocks_cons_eq hpure hm, Graph.blocks_append hpure] at hplaced ⊢
    -- what is inside starts behind the table, and what is beside behind all that is inside
    obtain ⟨hplace, hothers⟩ := hplaced
    obtain ⟨hbelow, hothers⟩ := Block.placed_append.1 hothers
    rw [hnext] at hbelow hothers
    rw [hinside.sizes_eq hpure] at hothers
    obtain ⟨hbases, hplaces, hstored⟩ := ihInside hbelow
    obtain ⟨hbases', hplaces', hstored'⟩ := ihBeside hothers
    refine ⟨?_, ?_, ?_⟩
    · rw [List.map_cons, hplace, hbases', bases]
    · rw [List.map_cons, List.map_append, hplace, hplaces, hplaces', places]
    · rw [Block.storedList, Block.storedList_append, hinside.sizes_eq hpure, hnext, hstored, hstored',
        hnode.stored_eq (b := b) hpure rfl, hbases, ← hinside.count_eq, List.append_assoc, encode]

end Trees.Describe

/-! ## Whole topologies -/

section Paths

variable {g : Graph} {r : Registry} (hpure : r.custom.Pure) {order : List ComponentId}

include hpure

/-- The ends of a path are referred to by the offsets of their components. -/
theorem Path.Describes.encode_eq {p : Path} {path : DataPath} (h : p.Describes order path)
    (id : PathId) (place : ComponentId → Nat) :
    p.encode r (order.map place) =
      PathBlock.stored { id, path, attributes := r.packed path.attributes.entries } place := by
  have hplace {i : Nat} {c : ComponentId} (hi : order[i]? = some c) :
      (order.map place).getD i 0 = place c := by
    rw [List.getD_eq_getElem?_getD, List.getElem?_map, hi]
    rfl
  rw [encode, hplace h.source_eq, hplace h.target_eq, attributeSection_eq hpure h.attributes_perm,
    PathBlock.stored, PathRecord.ofPath, h.orientation_eq, h.type_eq, h.bandwidth_eq, h.latency_eq]

theorem Path.flatMap_encode {paths : List Path} {entries : List (PathId × DataPath)}
    (h : List.Forall₂ (fun p entry => Describes order p entry.2) paths entries)
    (place : ComponentId → Nat) (calls : CallLog) :
    Writer.countBytes paths.length ++ paths.flatMap (encode r (order.map place)) =
      PathBlock.storedSection place (PathBlock.ofPaths r entries calls).1 := by
  rw [PathBlock.storedSection, PathBlock.length_ofPaths, h.length_eq, PathBlock.storedList,
    PathBlock.ofPaths_eq hpure, List.flatMap_map]
  congr 1
  induction h with
  | nil => rfl
  | cons hpath _ ih => rw [List.flatMap_cons, List.flatMap_cons, ih, hpath.encode_eq hpure]

end Paths

namespace Topology.Describes

variable {g : Graph} {r : Registry} {root : ComponentId} {t : Topology}
  (hpure : r.custom.Pure) (h : t.Describes g root) (calls : CallLog)

include hpure h

theorem length_trees : (t.trees.encode r 0).length = (g.storedTopology r root 0 calls).treeSize := by
  rw [StoredTopology.treeSize, Graph.blocks_storedTopology hpure, h.trees.sizes_eq hpure,
    Trees.length_encode]

/-- What is stored of a subtree is the encoding of the topology that describes it. -/
theorem encode_eq (hwf : g.WellFormed) (hroot : root < g.size) :
    t.encode r = (g.storedTopology r root 0 calls).stored := by
  let s := g.storedTopology r root 0 calls
  have hblocks : s.blocks = (g.blocks r (g.subtree root) ∅).1 :=
    Graph.blocks_storedTopology hpure root 0 calls
  have hplaced : Block.Placed s.place 0 s.blocks :=
    Block.placed_place (hwf.nodup_blocks r hroot 0 calls)
  rw [hblocks] at hplaced
  obtain ⟨-, hplaces, hstored⟩ := h.trees.encode_eq hpure hplaced
  show _ = Block.storedList s.place 0 s.blocks ++ PathBlock.storedSection s.place s.paths
  rw [encode, ← hplaces, ← hstored, hblocks,
    Path.flatMap_encode hpure h.paths s.place (g.blocks r (g.subtree root) calls).2]
  rfl

end Topology.Describes

/-! ## Every subtree is described -/

/-- What describes two lists of components one after the other falls into two parts. -/
theorem Trees.Describe.split {g : Graph} {trees : Trees} {first second order : List ComponentId}
    (h : trees.Describe g (first ++ second) order) :
    ∃ (front back : Trees) (below others : List ComponentId), order = below ++ others ∧
      front.Describe g first below ∧ back.Describe g second others := by
  induction first generalizing trees order with
  | nil => exact ⟨.nil, trees, [], order, rfl, .nil, h⟩
  | cons c rest ih =>
    cases h with
    | @cons node inside beside _ m _ below others hm hnode hinside hbeside =>
      obtain ⟨front, back, x, y, rfl, hfront, hback⟩ := ih hbeside
      refine ⟨.cons node inside front, back, c :: (below ++ x), y, ?_, ?_, hback⟩
      · rw [List.cons_append, List.append_assoc]
      · exact .cons hm hnode hinside hfront

/-- What describes a single component is a single tree. -/
theorem Trees.Describe.eq_cons {g : Graph} {trees : Trees} {c : ComponentId}
    {order : List ComponentId} (h : trees.Describe g [c] order) :
    ∃ (root : Node) (inside : Trees), trees = .cons root inside .nil := by
  cases h with
  | @cons node inside _ _ _ _ _ _ _ _ _ hbeside =>
    cases hbeside
    exact ⟨node, inside, rfl⟩

theorem Trees.exists_describe {g : Graph} {ids order : List ComponentId} (hv : g.Visits ids order)
    (hknown : ∀ c ∈ order, c < g.size) : ∃ trees : Trees, trees.Describe g ids order := by
  induction hv with
  | nil => exact ⟨.nil, .nil⟩
  | @cons c pending order hv ih =>
    obtain ⟨trees, h⟩ := ih fun d hd => hknown d (List.mem_cons_of_mem _ hd)
    obtain ⟨inside, beside, below, others, rfl, hinside, hbeside⟩ := h.split
    obtain ⟨m, hm⟩ := Graph.member?_of_lt (hknown c List.mem_cons_self)
    rw [Graph.children_eq hm] at hinside
    let node : Node :=
      { id := m.id, name := m.name, details := m.details, attributes := m.attributes.entries }
    exact ⟨.cons node inside beside, .cons hm ⟨rfl, rfl, rfl, .refl _⟩ hinside hbeside⟩

theorem Path.exists_describes {order : List ComponentId} {entries : List (PathId × DataPath)}
    (h : ∀ entry ∈ entries, entry.2.source ∈ order ∧ entry.2.target ∈ order) :
    ∃ paths : List Path, List.Forall₂ (fun p entry => p.Describes order entry.2) paths entries := by
  induction entries with
  | nil => exact ⟨[], .nil⟩
  | cons entry rest ih =>
    obtain ⟨paths, hpaths⟩ := ih fun other hother => h other (List.mem_cons_of_mem _ hother)
    obtain ⟨hsource, htarget⟩ := h entry List.mem_cons_self
    obtain ⟨i, hi⟩ := List.mem_iff_getElem?.1 hsource
    obtain ⟨j, hj⟩ := List.mem_iff_getElem?.1 htarget
    let p : Path :=
      { source := i
        target := j
        orientation := entry.2.orientation
        type := entry.2.type
        bandwidth := entry.2.bandwidth
        latency := entry.2.latency
        attributes := entry.2.attributes.entries }
    exact ⟨p :: paths, .cons ⟨hi, hj, rfl, rfl, rfl, rfl, .refl _⟩ hpaths⟩

theorem Topology.exists_describes {g : Graph} (hwf : g.WellFormed) {root : ComponentId}
    (hroot : root < g.size) : ∃ t : Topology, t.Describes g root := by
  have hv := hwf.toForest.visits_subtree hroot
  obtain ⟨trees, htrees⟩ := Trees.exists_describe hv fun _ =>
    hwf.toForest.lt_size_of_mem_subtree
  have hinner : ∀ entry ∈ g.innerPaths (g.subtree root),
      entry.2.source ∈ g.subtree root ∧ entry.2.target ∈ g.subtree root := by
    intro entry hentry
    exact (Graph.mem_innerPaths.1 hentry).2
  obtain ⟨paths, hpaths⟩ := Path.exists_describes hinner
  obtain ⟨root, inside, rfl⟩ := htrees.eq_cons
  exact ⟨{ root, inside, paths }, htrees, hpaths⟩

end Format

end HardwareMap
