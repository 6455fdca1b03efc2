import HardwareMap.Import.Importer
import HardwareMap.Proofs.Export.Paths
import HardwareMap.Proofs.Import.Tree

/-!
# Reading a stored section of paths

Behind the tree stands the number of the paths, then one block for each.  If the index knows the
places of the components then every block adds its path between the components at the places of its
ends, and nothing else changes: `Extended` is what holds between the graph before some blocks and the
graph after them.
-/

namespace HardwareMap

namespace PathBlock

/-- The path that a block is read back as, its ends being renumbered. -/
def decoded (b : PathBlock) (r : Registry) (number : ComponentId → ComponentId) : DataPath :=
  { b.path with
    source := number b.path.source
    target := number b.path.target
    attributes := .ofList (r.unpackAll b.attributes.packed) }

/-- A block whose payloads can be read back, between components that an index knows. -/
structure Readable (r : Registry) (place : ComponentId → Nat) (number : ComponentId → ComponentId)
    (offsets : SortedMap Nat ComponentId) (b : PathBlock) : Prop where
  names_free : NulFree (b.attributes.packed.map (·.1))
  unpackable : r.Unpackable b.attributes.packed
  source_eq : offsets.get? (place b.path.source) = some (number b.path.source)
  target_eq : offsets.get? (place b.path.target) = some (number b.path.target)
  source_lt : place b.path.source < UInt64.size
  target_lt : place b.path.target < UInt64.size

theorem length_le_sizes (blocks : List PathBlock) : blocks.length ≤ sizes blocks := by
  induction blocks with
  | nil => exact Nat.le_refl 0
  | cons b rest ih =>
    have hsize : 0 < b.size := Nat.add_pos_left (by decide) _
    rw [sizes, List.map_cons, List.sum_cons, ← sizes, List.length_cons]
    omega

end PathBlock

/-- A sequence succeeds when its first step does and then its second. -/
theorem Intaking.bind_eq_ok {α β : Type} {m : Intaking α} {f : α → Intaking β} {bytes : Bytes}
    {s s' : Intake} {b : β} :
    (m >>= f) bytes s = .ok b s' ↔ ∃ a t, m bytes s = .ok a t ∧ f a bytes t = .ok b s' :=
  HardwareMap.bind_eq_ok (m := m bytes)

theorem Intaking.reading_eq_ok {α : Type} {reader : Reader α} {a : α} {bytes : Bytes}
    {s s' : Intake} :
    reading reader bytes s = .ok a s' ↔
      ∃ cursor, reader bytes s.cursor = .ok a cursor ∧ s' = { s with cursor } := by
  unfold reading
  cases reader bytes s.cursor with
  | error e cursor => simp
  | ok found cursor =>
    constructor
    · rintro ⟨⟩
      exact ⟨cursor, rfl, rfl⟩
    · rintro ⟨_, ⟨⟩, rfl⟩
      rfl

theorem Intaking.discard_eq_ok {α : Type} {m : Intaking α} {bytes : Bytes} {s s' : Intake} :
    (discard m : Intaking Unit) bytes s = .ok () s' ↔ ∃ a, m bytes s = .ok a s' := by
  refine (Intaking.bind_eq_ok (f := fun _ => Pure.pure ())).trans ⟨?_, ?_⟩
  · rintro ⟨a, _, h, ⟨⟩⟩
    exact ⟨a, h⟩
  · rintro ⟨a, h⟩
    exact ⟨a, s', h, rfl⟩

/-- The graph after some paths were added. -/
structure Graph.Extended (g : Graph) (paths : List DataPath) (g' : Graph) : Prop
    extends SameForest g g' where
  wellFormed : g'.WellFormed
  content?_eq : ∀ c, g'.content? c = g.content? c
  paths_eq : g'.paths.toList = g.paths.toList ++ paths.map some

theorem Graph.WellFormed.extended_nil {g : Graph} (h : g.WellFormed) : g.Extended [] g where
  toSameForest := .refl g
  wellFormed := h
  content?_eq _ := rfl
  paths_eq := (List.append_nil _).symm

theorem Graph.Joined.extended {g g' g'' : Graph} {path : DataPath} {paths : List DataPath}
    (hjoin : Joined g path g') (h : g'.Extended paths g'') : g.Extended (path :: paths) g'' where
  toSameForest := hjoin.toSameForest.trans h.toSameForest
  wellFormed := h.wellFormed
  content?_eq c := (h.content?_eq c).trans (hjoin.content?_eq c)
  paths_eq := by
    rw [h.paths_eq, hjoin.paths_eq, Array.toList_push, List.append_assoc]
    rfl

namespace TreeIndex

variable {r : Registry} {bytes : Bytes} {place : ComponentId → Nat}
  {number : ComponentId → ComponentId} {offsets : SortedMap Nat ComponentId}

theorem reads_endpoint {offset : Nat} {c : ComponentId} (h : offsets.get? offset = some c)
    (start : Nat) : Reads (endpoint offsets start offset) [] c := by
  rw [endpoint, h]
  exact Reads.pure c

theorem reads_readPath {b : PathBlock} (hb : b.Readable r place number offsets) :
    Reads (readPath r offsets) (b.stored place) (b.decoded r number) := by
  refine Reads.position fun start => ?_
  have hends := (Attributes.reads_read hb.names_free hb.unpackable).map fun attributes =>
    ({ source := number b.path.source, target := number b.path.target,
       orientation := b.path.orientation, type := b.path.type, bandwidth := b.path.bandwidth,
       latency := b.path.latency, attributes } : DataPath)
  exact (PathRecord.reads_read (p := .ofPath b.path (place b.path.source) (place b.path.target))
    hb.source_lt hb.target_lt).bind
      ((reads_endpoint hb.source_eq start).bind ((reads_endpoint hb.target_eq start).bind hends))

/-- Reading a block adds its path. -/
theorem intakePath_eq (hlen : bytes.length < UInt64.size) {b : PathBlock}
    (hb : b.Readable r place number offsets) {graph : Graph} {cursor : Nat}
    (hholds : bytes.Holds cursor (b.stored place)) (hsource : number b.path.source < graph.size)
    (htarget : number b.path.target < graph.size) (hlive : graph.livePaths + 1 < UInt64.size) :
    ∃ graph', intakePath r offsets bytes ⟨graph, cursor⟩ = .ok () ⟨graph', cursor + b.size⟩ ∧
      Graph.Joined graph (b.decoded r number) graph' := by
  have hread := reads_readPath hb bytes cursor hlen hholds
  rw [b.length_stored] at hread
  let p := b.decoded r number
  have hreading : Intaking.reading (readPath r offsets) bytes ⟨graph, cursor⟩ =
      .ok p ⟨graph, cursor + b.size⟩ := by
    rw [Intaking.reading, hread]
  rcases graph.addPath_cases p.source p.target p.orientation p.type p.toAnnotations with
    ⟨c, hc, hle, -⟩ | ⟨graph', hadd, -, -, hjoin⟩
  · have hlt : c < graph.size := by
      rcases hc with rfl | rfl
      · exact hsource
      · exact htarget
    exact absurd hlt (Nat.not_lt.2 hle)
  · refine ⟨graph', ?_, hjoin⟩
    have hadding : Intaking.adding (fun g =>
        g.addPath p.source p.target p.orientation p.type p.toAnnotations) bytes
          ⟨graph, cursor + b.size⟩ = .ok graph.paths.size ⟨graph', cursor + b.size⟩ := by
      rw [Intaking.adding, hadd]
    have hcounting : Intaking.reading (Reader.add graph.livePaths 1) bytes
        ⟨graph', cursor + b.size⟩ = .ok (graph.livePaths + 1) ⟨graph', cursor + b.size⟩ := by
      rw [Intaking.reading, Reader.add_eq hlive]
    exact Intaking.bind_eq_ok.2 ⟨p, _, hreading, Intaking.bind_eq_ok.2 ⟨_, _, rfl,
      Intaking.bind_eq_ok.2 ⟨(), _, Intaking.discard_eq_ok.2 ⟨_, hadding⟩,
        Intaking.discard_eq_ok.2 ⟨_, hcounting⟩⟩⟩⟩

/-- Reading blocks in turn adds their paths in turn. -/
theorem repeated_intakePath (hlen : bytes.length < UInt64.size) {blocks : List PathBlock}
    (hblocks : ∀ b ∈ blocks, b.Readable r place number offsets) {graph : Graph}
    (hsource : ∀ b ∈ blocks, number b.path.source < graph.size)
    (htarget : ∀ b ∈ blocks, number b.path.target < graph.size) {cursor : Nat}
    (hholds : bytes.Holds cursor (PathBlock.storedList place blocks)) (h : graph.WellFormed)
    (hlive : graph.livePaths + blocks.length < UInt64.size) :
    ∃ graph', Intaking.repeated (intakePath r offsets) blocks.length bytes ⟨graph, cursor⟩ =
        .ok () ⟨graph', cursor + PathBlock.sizes blocks⟩ ∧
      graph.Extended (blocks.map (·.decoded r number)) graph' := by
  induction blocks generalizing graph cursor with
  | nil => exact ⟨graph, rfl, h.extended_nil⟩
  | cons b rest ih =>
    obtain ⟨graph₁, hfirst, hjoin⟩ := intakePath_eq hlen (hblocks b List.mem_cons_self)
      hholds.left (hsource b List.mem_cons_self) (htarget b List.mem_cons_self)
      (by rw [List.length_cons] at hlive; omega)
    have hlast := hholds.right
    rw [b.length_stored] at hlast
    have hgrown : ∀ {c : ComponentId}, c < graph.size → c < graph₁.size := fun hc => by
      rw [hjoin.size_eq]
      exact hc
    have hwf : graph₁.WellFormed := {
      toForest := h.toForest.congr hjoin.toSameForest
      toRegistered := h.toRegistered.joined hjoin (hsource b List.mem_cons_self)
        (htarget b List.mem_cons_self) }
    obtain ⟨graph', hrest, hextended⟩ :=
      ih (fun b' hb' => hblocks b' (List.mem_cons_of_mem _ hb'))
        (fun b' hb' => hgrown (hsource b' (List.mem_cons_of_mem _ hb')))
        (fun b' hb' => hgrown (htarget b' (List.mem_cons_of_mem _ hb'))) hlast hwf
        (by rw [hjoin.livePaths_eq]; rw [List.length_cons] at hlive; omega)
    rw [Nat.add_assoc] at hrest
    refine ⟨graph', ?_, hjoin.extended hextended⟩
    exact Intaking.bind_eq_ok.2 ⟨(), _, hfirst, hrest⟩

/-- Reading a section of paths adds the paths of its blocks, and ends where the section does. -/
theorem intakePaths_eq (hlen : bytes.length < UInt64.size) {blocks : List PathBlock}
    (hblocks : ∀ b ∈ blocks, b.Readable r place number offsets) {graph : Graph}
    (hsource : ∀ b ∈ blocks, number b.path.source < graph.size)
    (htarget : ∀ b ∈ blocks, number b.path.target < graph.size) {start : Nat}
    (hholds : bytes.Holds start (PathBlock.storedSection place blocks)) (h : graph.WellFormed)
    (hlive : graph.livePaths = 0) (cursor : Nat) :
    ∃ graph', intakePaths r offsets start bytes ⟨graph, cursor⟩ =
        .ok blocks.length ⟨graph', start + (wordSize + PathBlock.sizes blocks)⟩ ∧
      graph.Extended (blocks.map (·.decoded r number)) graph' := by
  have hle := hholds.le
  rw [PathBlock.length_storedSection] at hle
  have hseek : Reader.seek start bytes cursor = .ok () start :=
    Reader.seek_eq hlen (by omega) cursor
  have hword := Reader.reads_word (UInt64.ofNat blocks.length) bytes start hlen hholds.left
  rw [Word.length_toBytes] at hword
  have hsizes := PathBlock.length_le_sizes blocks
  have hcount : (UInt64.ofNat blocks.length).toNat = blocks.length :=
    Reader.toNat_ofNat_lt (by omega)
  have hreading : Intaking.reading (do Reader.seek start; Reader.word UInt64) bytes
      ⟨graph, cursor⟩ = .ok (UInt64.ofNat blocks.length) ⟨graph, start + wordSize⟩ := by
    rw [Intaking.reading, Reader.bind_eq_ok.2 ⟨(), start, hseek, hword⟩]
    rfl
  obtain ⟨graph', hrepeated, hextended⟩ :=
    repeated_intakePath hlen hblocks hsource htarget hholds.right h (by rw [hlive]; omega)
  rw [Writer.length_countBytes, Nat.add_assoc] at hrepeated
  refine ⟨graph', Intaking.bind_eq_ok.2 ⟨_, _, hreading, ?_⟩, hextended⟩
  rw [hcount]
  exact Intaking.bind_eq_ok.2 ⟨(), _, hrepeated, rfl⟩

end TreeIndex

end HardwareMap
