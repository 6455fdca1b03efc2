import HardwareMap.Proofs.Export.Sizing
import HardwareMap.Proofs.Topology.Deletion
import HardwareMap.Proofs.Topology.Lineage

/-!
# How estimates grow

With pure encoders an estimate is a sum over the components of a subtree: what each takes in the tree
(`Graph.ownBytes`) and what the paths at it take (`Graph.incidentBytes`).  So it is enough to compare two
subtrees component by component (`Graph.Lighter`).  Whatever adds to a graph makes none of these numbers
smaller, deleting a path is the reverse of adding one, and a subtree contains those of its components
(`Graph.estimate_monotone`).
-/

namespace HardwareMap

/-! ## Sums over parts of lists -/

theorem sum_map_le_of_subperm_of_le {α : Type} {l l' : List α} {f f' : α → Nat} (h : l.Subperm l')
    (hle : ∀ a ∈ l, f a ≤ f' a) : (l.map f).sum ≤ (l'.map f').sum :=
  Nat.le_trans (List.sum_le_sum hle) (sum_map_le_of_subperm h f')

/-- Without a number that weighs something a list weighs less. -/
theorem sum_map_filter_ne_lt {l : List Nat} {a : Nat} (ha : a ∈ l) {f : Nat → Nat}
    (hpos : 0 < f a) : ((l.filter (· != a)).map f).sum < (l.map f).sum := by
  induction l with
  | nil => cases ha
  | cons first rest ih =>
    rw [List.map_cons, List.sum_cons]
    by_cases hfirst : first = a
    · subst hfirst
      have hle : ((rest.filter (· != first)).map f).sum ≤ (rest.map f).sum :=
        sum_map_le_of_subperm List.filter_sublist.subperm f
      rw [List.filter_cons_of_neg (by simp)]
      omega
    · have hrest := ih ((List.mem_cons.1 ha).resolve_left (Ne.symm hfirst))
      rw [List.filter_cons_of_pos (by simpa using hfirst), List.map_cons, List.sum_cons]
      omega

/-! ## Attributes -/

/-- A new key leaves the other entries as they are, in their order. -/
theorem SortedMap.sublist_entries_insert {κ β : Type} [Ord κ] [Std.TransOrd κ] [Std.LawfulEqOrd κ]
    {m : SortedMap κ β} {key : κ} (h : m.get? key = none) (value : β) :
    m.entries.Sublist (m.insert key value).entries := by
  have hnew : ∀ entry ∈ m.entries, compare key entry.1 ≠ .eq := by
    intro entry hentry heq
    have hnone := List.find?_eq_none.1 (Option.map_eq_none_iff.1 h) entry hentry
    rw [Std.OrientedCmp.eq_symm heq] at hnone
    exact hnone rfl
  show m.entries.Sublist (setEntry key value m.entries)
  generalize m.entries = entries at hnew
  induction entries with
  | nil => exact List.nil_sublist _
  | cons first rest ih =>
    rw [setEntry]
    split
    · exact List.sublist_cons_self _ _
    · next heq => exact absurd heq (hnew first List.mem_cons_self)
    · exact (ih fun entry hentry => hnew entry (List.mem_cons_of_mem _ hentry)).cons_cons _

namespace Attributes

/-- Bytes of a section of attributes, packed before any call was made on an encoder. -/
def packedSize (a : Attributes) (r : Registry) : Nat :=
  (storedSection (r.packed a.entries).packed).length

/-- With pure encoders an attribute under a new name takes its own bytes, if any, and no others. -/
theorem packedSize_insert {r : Registry} (hpure : r.custom.Pure) {a : Attributes} {name : String}
    (h : a.get? name = none) (value : Value) :
    packedSize a r ≤ packedSize (a.insert name value) r := by
  have hpacked : (r.packed a.entries).packed.Sublist
      (r.packed (a.insert name value).entries).packed := by
    rw [Registry.packed_eq hpure, Registry.packed_eq hpure]
    exact (SortedMap.sublist_entries_insert h value).filterMap _
  rw [packedSize, packedSize, length_storedSection, length_storedSection]
  exact Nat.add_le_add_left (sum_map_le_of_subperm hpacked.subperm _) _

end Attributes

/-! ## An estimate as a sum -/

/-- Bytes of a component with its attributes, its child table apart. -/
def Component.packedSize (c : Component) (r : Registry) : Nat :=
  c.recordSize + c.attributes.packedSize r

theorem Component.packedSize_pos (c : Component) (r : Registry) : 0 < c.packedSize r := by
  have hword : 0 < wordSize := by decide
  rw [packedSize, recordSize]
  omega

namespace Graph

/-- Bytes that a component takes in the tree. -/
def ownBytes (g : Graph) (r : Registry) (c : ComponentId) : Nat :=
  (g.content? c).elim 0 (·.packedSize r) + (g.children c).length * wordSize

/-- Bytes of the paths that are counted at a component. -/
def incidentBytes (g : Graph) (r : Registry) (c : ComponentId) : Nat :=
  ((g.pathsOf c .any).map (g.pathBytes r)).sum

theorem pathBytes_pos {g : Graph} {id : PathId} {path : DataPath} (h : g.path? id = some path)
    (r : Registry) : 0 < g.pathBytes r id := by
  have hsize : 0 < PathRecord.size := by decide
  rw [pathBytes, h]
  exact Nat.add_pos_left hsize _

theorem ownBytes_pos {g : Graph} {c : ComponentId} {x : Component} (h : g.content? c = some x)
    (r : Registry) : 0 < g.ownBytes r c := by
  rw [ownBytes, h]
  exact Nat.add_pos_left (x.packedSize_pos r) _

theorem sizes_blocks {g : Graph} {r : Registry} (hpure : r.custom.Pure) (order : List ComponentId) :
    Block.sizes (g.blocks r order ∅).1 = (order.map (g.ownBytes r)).sum := by
  rw [blocks_eq hpure, Block.sizes]
  induction order with
  | nil => rfl
  | cons c rest ih =>
    rw [List.map_cons, List.sum_cons, ← ih, ownBytes, content?, children]
    cases hm : g.member? c with
    | none =>
      rw [List.filterMap_cons_none (by rw [hm]; rfl)]
      simp
    | some m =>
      rw [List.filterMap_cons_some (by rw [hm]; rfl), List.map_cons, List.sum_cons]
      rfl

theorem sum_pathBytes (g : Graph) (r : Registry) (order : List ComponentId) :
    ((order.flatMap (g.pathsOf · .any)).map (g.pathBytes r)).sum =
      (order.map (g.incidentBytes r)).sum := by
  induction order with
  | nil => rfl
  | cons c rest ih =>
    rw [List.flatMap_cons, List.map_append, List.sum_append, ih, List.map_cons, List.sum_cons,
      incidentBytes]

theorem ofSubtree_eq {g : Graph} {r : Registry} (hpure : r.custom.Pure) (root : ComponentId) :
    Estimate.ofSubtree g r root =
      .ofBytes (g.subtree root).length ((g.subtree root).map (g.ownBytes r)).sum
        (wordSize + ((g.subtree root).map (g.incidentBytes r)).sum) := by
  rw [Estimate.ofSubtree, sizes_blocks hpure, sum_pathBytes]

end Graph

/-! ## Comparing estimates -/

/-- An estimate that nowhere exceeds another one. -/
structure Estimate.Within (e e' : Estimate) : Prop where
  components_le : e.components ≤ e'.components
  treeBytes_le : e.treeBytes ≤ e'.treeBytes
  pathBytes_le : e.pathBytes ≤ e'.pathBytes
  total_le : e.total ≤ e'.total
  fileSize_le : e.fileSize ≤ e'.fileSize

/-- Fewer components, tree bytes and path bytes need no larger file. -/
theorem Estimate.within_ofBytes {components components' tree tree' paths paths' : Nat}
    (hcomponents : components ≤ components') (htree : tree ≤ tree') (hpaths : paths ≤ paths') :
    (ofBytes components tree paths).Within (ofBytes components' tree' paths') := by
  have hle : headerSize + tree + paths ≤ headerSize + tree' + paths' := by omega
  exact {
    components_le := hcomponents
    treeBytes_le := htree
    pathBytes_le := hpaths
    total_le := hle
    fileSize_le := wholePages_mono hle }

/-- What is counted below a component of one graph is counted below one of another graph as well, and
weighs no less there. -/
structure Graph.Lighter (r : Registry) (g : Graph) (root : ComponentId) (g' : Graph)
    (root' : ComponentId) : Prop where
  subtree_subperm : (g.subtree root).Subperm (g'.subtree root')
  ownBytes_le : ∀ c ∈ g.subtree root, g.ownBytes r c ≤ g'.ownBytes r c
  incidentBytes_le : ∀ c ∈ g.subtree root, g.incidentBytes r c ≤ g'.incidentBytes r c

namespace Graph.Lighter

variable {r : Registry} (hpure : r.custom.Pure) {g g' : Graph} {root root' : ComponentId}
  (h : Lighter r g root g' root')

include h

theorem treeBytes_le : ((g.subtree root).map (g.ownBytes r)).sum ≤
    ((g'.subtree root').map (g'.ownBytes r)).sum :=
  sum_map_le_of_subperm_of_le h.subtree_subperm h.ownBytes_le

theorem pathBytes_le : ((g.subtree root).map (g.incidentBytes r)).sum ≤
    ((g'.subtree root').map (g'.incidentBytes r)).sum :=
  sum_map_le_of_subperm_of_le h.subtree_subperm h.incidentBytes_le

include hpure

theorem within : (Estimate.ofSubtree g r root).Within (Estimate.ofSubtree g' r root') := by
  rw [ofSubtree_eq hpure, ofSubtree_eq hpure]
  exact Estimate.within_ofBytes h.subtree_subperm.length_le h.treeBytes_le
    (Nat.add_le_add_left h.pathBytes_le _)

/-- A further component with a weight of its own makes the total larger. -/
theorem total_lt_of_mem {c : ComponentId} (hc : (c :: g.subtree root).Subperm (g'.subtree root'))
    (hpos : 0 < g'.ownBytes r c) :
    (Estimate.ofSubtree g r root).total < (Estimate.ofSubtree g' r root').total := by
  have htree : ((g.subtree root).map (g.ownBytes r)).sum <
      ((g'.subtree root').map (g'.ownBytes r)).sum := by
    have hle := sum_map_le_of_subperm hc (g'.ownBytes r)
    have hsame : ((g.subtree root).map (g.ownBytes r)).sum ≤
        ((g.subtree root).map (g'.ownBytes r)).sum := List.sum_le_sum h.ownBytes_le
    rw [List.map_cons, List.sum_cons] at hle
    omega
  have hpaths := h.pathBytes_le
  rw [ofSubtree_eq hpure, ofSubtree_eq hpure]
  simp only [Estimate.ofBytes]
  omega

/-- Paths that weigh more at one of the components make the total larger. -/
theorem total_lt_of_incident {c : ComponentId} (hc : c ∈ g.subtree root)
    (hlt : g.incidentBytes r c < g'.incidentBytes r c) :
    (Estimate.ofSubtree g r root).total < (Estimate.ofSubtree g' r root').total := by
  have hpaths : ((g.subtree root).map (g.incidentBytes r)).sum <
      ((g'.subtree root').map (g'.incidentBytes r)).sum :=
    Nat.lt_of_lt_of_le (List.sum_lt_sum _ _ h.incidentBytes_le ⟨c, hc, hlt⟩)
      (sum_map_le_of_subperm h.subtree_subperm _)
  have htree := h.treeBytes_le
  rw [ofSubtree_eq hpure, ofSubtree_eq hpure]
  simp only [Estimate.ofBytes]
  omega

end Graph.Lighter

namespace Graph

/-- A subtree is no lighter than any other one inside of it. -/
theorem Forest.lighter_of_mem {g : Graph} (h : Forest g) (r : Registry) {root c : ComponentId}
    (hc : c ∈ g.subtree root) : Lighter r g c g root where
  subtree_subperm := h.subtree_subperm h (fun _ _ hp => hp) (h.lt_size_of_mem_subtree hc) hc
  ownBytes_le _ _ := Nat.le_refl _
  incidentBytes_le _ _ := Nat.le_refl _

/-! ## A component more -/

section Added

variable {g g' : Graph} (h : Forest g) {parent : Option ComponentId} {x : Component}
  (hadd : Added g parent x g') (hparent : ∀ p, parent = some p → p < g.size) (r : Registry)
  {root : ComponentId} (hroot : root < g.size)

include hadd

theorem Added.incidentBytes_eq (c : ComponentId) :
    g'.incidentBytes r c = g.incidentBytes r c := by
  have hpath : ∀ id, g'.path? id = g.path? id := fun id => by rw [path?, hadd.paths_eq]; rfl
  have hbytes : g'.pathBytes r = g.pathBytes r := funext fun id => by
    rw [pathBytes, pathBytes, hpath]
  rw [incidentBytes, incidentBytes, hadd.pathsOf_eq, hbytes]

include h hparent hroot

theorem Added.subtree_subperm : (g.subtree root).Subperm (g'.subtree root) := by
  have h' := h.added hadd hparent
  have hroot' : root < g'.size := by
    rw [hadd.size_eq]
    exact Nat.lt_succ_of_lt hroot
  refine h.subtree_subperm h' (fun c p hp => ?_) hroot (h'.mem_subtree_self hroot')
  rw [hadd.parent?_eq, if_neg (Nat.ne_of_lt (lt_of_parent? hp)), hp]

/-- Whoever adopts the new component has one word more to list it, and all others stay as they are. -/
theorem Added.lighter : Lighter r g root g' root where
  subtree_subperm := hadd.subtree_subperm h hparent hroot
  ownBytes_le c hc := by
    have hlt := h.lt_size_of_mem_subtree hc
    rw [ownBytes, ownBytes, hadd.content?_eq, if_neg (Nat.ne_of_lt hlt), hadd.children_eq,
      List.length_append]
    exact Nat.add_le_add_left (Nat.mul_le_mul_right _ (Nat.le_add_right _ _)) _
  incidentBytes_le c _ := Nat.le_of_eq (hadd.incidentBytes_eq r c).symm

theorem Added.total_lt (hpure : r.custom.Pure) (hnew : g.size ∈ g'.subtree root) :
    (Estimate.ofSubtree g r root).total < (Estimate.ofSubtree g' r root).total := by
  have hfresh : g.size ∉ g.subtree root := fun hc => Nat.lt_irrefl _ (h.lt_size_of_mem_subtree hc)
  have hcontent : g'.content? g.size = some x := by rw [hadd.content?_eq, if_pos rfl]
  refine (hadd.lighter h hparent r hroot).total_lt_of_mem hpure ?_ (ownBytes_pos hcontent r)
  exact List.subperm_of_subset (List.nodup_cons.2 ⟨hfresh, h.nodup_subtree hroot⟩)
    (List.cons_subset.2 ⟨hnew, (hadd.subtree_subperm h hparent hroot).subset⟩)

end Added

/-! ## A path less -/

section Without

variable {g g' : Graph} {id : PathId} (hwithout : g.Without id g') (r : Registry)

include hwithout

theorem Without.pathBytes_le (other : PathId) : g'.pathBytes r other ≤ g.pathBytes r other := by
  rw [pathBytes, hwithout.path?_eq]
  by_cases hid : id = other
  · rw [if_pos hid]
    exact Nat.zero_le _
  · rw [if_neg hid]
    exact Nat.le_refl _

theorem Without.incidentBytes_le (c : ComponentId) : g'.incidentBytes r c ≤ g.incidentBytes r c := by
  rw [incidentBytes, incidentBytes, hwithout.pathsOf_eq]
  exact sum_map_le_of_subperm_of_le List.filter_sublist.subperm fun other _ =>
    hwithout.pathBytes_le r other

theorem Without.incidentBytes_lt {c : ComponentId} (hid : id ∈ g.pathsOf c .any) {path : DataPath}
    (hpath : g.path? id = some path) : g'.incidentBytes r c < g.incidentBytes r c := by
  rw [incidentBytes, incidentBytes, hwithout.pathsOf_eq]
  exact Nat.lt_of_le_of_lt (List.sum_le_sum fun other _ => hwithout.pathBytes_le r other)
    (sum_map_filter_ne_lt hid (pathBytes_pos hpath r))

theorem Without.lighter (h : Forest g) {root : ComponentId} (hroot : root < g.size) :
    Lighter r g' root g root where
  subtree_subperm := by rw [h.subtree_congr hwithout.toSameForest hroot]
  ownBytes_le c _ := by rw [ownBytes, ownBytes, hwithout.content?_eq, hwithout.children_eq]
  incidentBytes_le c _ := hwithout.incidentBytes_le r c

end Without

/-! ## A path more -/

/-- A slot that was never filled weighs nothing. -/
theorem incidentBytes_push_none (g : Graph) (r : Registry) (c : ComponentId) :
    Graph.incidentBytes { g with paths := g.paths.push none } r c = g.incidentBytes r c := by
  have hpath : ∀ id, Graph.path? { g with paths := g.paths.push none } id = g.path? id := by
    intro id
    rw [path?, path?_push]
    split
    · next hid => rw [hid, path?_eq_none_of_le (Nat.le_refl _)]
    · rfl
  have hbytes : Graph.pathBytes { g with paths := g.paths.push none } r = g.pathBytes r :=
    funext fun id => by rw [pathBytes, pathBytes, hpath]
  rw [incidentBytes, incidentBytes, hbytes]
  rfl

section Joined

variable {g g' : Graph} (h : g.WellFormed) {path : DataPath} (hjoin : Joined g path g')
  (hsource : path.source < g.size) (htarget : path.target < g.size) (r : Registry)
  {root : ComponentId} (hroot : root < g.size)

include h hjoin hsource htarget

/-- Without the new path the graph is the old one with one slot more. -/
theorem Joined.without :
    g'.Without g.paths.size { g with paths := g.paths.push none } := by
  have hwithout := (h.toRegistered.joined hjoin hsource htarget).without_deletePath g.paths.size
  rwa [h.deletePath_joined hjoin hsource htarget] at hwithout

theorem Joined.wellFormed : g'.WellFormed :=
  ⟨h.toForest.congr hjoin.toSameForest, h.toRegistered.joined hjoin hsource htarget⟩

include hroot

theorem Joined.lighter : Lighter r g root g' root where
  subtree_subperm := by rw [h.toForest.subtree_congr hjoin.toSameForest hroot]
  ownBytes_le c _ := by rw [ownBytes, ownBytes, hjoin.content?_eq, hjoin.children_eq]
  incidentBytes_le c _ := by
    rw [← incidentBytes_push_none]
    exact (hjoin.without h hsource htarget).incidentBytes_le r c

theorem Joined.total_lt (hpure : r.custom.Pure) {c : ComponentId} (hc : c ∈ g'.subtree root)
    (htouches : path.touches c) :
    (Estimate.ofSubtree g r root).total < (Estimate.ofSubtree g' r root).total := by
  have hpath : g'.path? g.paths.size = some path := by
    rw [Registered.path?_joined hjoin, if_pos rfl]
  have h' := hjoin.wellFormed h hsource htarget
  have hat : g.paths.size ∈ g'.pathsOf c .any :=
    (h'.toRegistered.mem_pathsOf_any_iff c).2 ⟨path, hpath, htouches⟩
  rw [h.toForest.subtree_congr hjoin.toSameForest hroot] at hc
  refine (hjoin.lighter h hsource htarget r hroot).total_lt_of_incident hpure hc ?_
  rw [← incidentBytes_push_none]
  exact (hjoin.without h hsource htarget).incidentBytes_lt r hat hpath

end Joined

/-! ## An attribute more -/

section Writes

variable {g : Graph} (h : Forest g) (r : Registry) {root : ComponentId} (hroot : root < g.size)

theorem content?_modifyComponent (g : Graph) (id c : ComponentId) (f : Component → Component) :
    (g.modifyComponent id f).content? c =
      (g.content? c).map fun x => if id = c then f x else x := by
  rw [content?, content?, member?_modifyComponent]
  cases g.member? c with
  | none => rfl
  | some m =>
    simp only [Option.map_some]
    split <;> rfl

include h hroot

/-- Where the content of a component becomes larger, all else weighs the same. -/
theorem lighter_modifyComponent {id : ComponentId} {f : Component → Component}
    (hf : ∀ x, g.content? id = some x → x.packedSize r ≤ (f x).packedSize r) :
    Lighter r g root (g.modifyComponent id f) root where
  subtree_subperm := by rw [h.subtree_congr (sameForest_modifyComponent g id f) hroot]
  ownBytes_le c _ := by
    rw [ownBytes, ownBytes, content?_modifyComponent,
      (sameForest_modifyComponent g id f).children_eq]
    refine Nat.add_le_add_right ?_ _
    cases hx : g.content? c with
    | none => exact Nat.le_refl _
    | some x =>
      simp only [Option.map_some, Option.elim_some]
      split
      · next hid =>
        subst hid
        exact hf x hx
      · exact Nat.le_refl _
  incidentBytes_le c _ := by
    rw [incidentBytes, incidentBytes, pathsOf_modifyComponent]
    exact Nat.le_refl _

/-- Where what is noted on a path becomes larger, all else weighs the same. -/
theorem lighter_modifyPath {id : PathId} {f : Annotations → Annotations}
    (hf : ∀ p, g.path? id = some p →
      p.attributes.packedSize r ≤ (f p.toAnnotations).attributes.packedSize r) :
    Lighter r g root (g.modifyPath id f) root where
  subtree_subperm := by
    have hsame : SameForest g (g.modifyPath id f) := ⟨rfl, fun _ => rfl, fun _ => rfl, rfl⟩
    rw [h.subtree_congr hsame hroot]
  ownBytes_le _ _ := Nat.le_refl _
  incidentBytes_le c _ := by
    refine List.sum_le_sum (l := g.pathsOf c .any) fun other _ => ?_
    rw [pathBytes, pathBytes, path?_modifyPath]
    cases hp : g.path? other with
    | none => exact Nat.le_refl _
    | some p =>
      simp only [Option.map_some]
      split
      · next hid =>
        subst hid
        exact Nat.add_le_add_left (hf p hp) _
      · exact Nat.le_refl _

end Writes

end Graph

/-! ## Edits that add something -/

/-- An edit that adds a component, a path, or an attribute under a new name. -/
inductive Edit.Adds (g : Graph) : Edit → Prop
  | component (parent : Option ComponentId) (c : Component) : Adds g (.addComponent parent c)
  | path (source target : ComponentId) (orientation : Orientation) (type : PathType)
      (bandwidth latency : Binary64) :
      Adds g (.addPath source target orientation type bandwidth latency)
  | connection (source target : ComponentId) (orientation : Orientation) :
      Adds g (.connect source target orientation)
  | componentAttribute (id : ComponentId) (name : String) (value : Value)
      (hnew : ∀ c, g.content? id = some c → c.attributes.get? name = none) :
      Adds g (.writeComponent id fun c => { c with attributes := c.attributes.insert name value })
  | pathAttribute (id : PathId) (name : String) (value : Value)
      (hnew : ∀ p, g.path? id = some p → p.attributes.get? name = none) :
      Adds g (.writePath id fun p => { p with attributes := p.attributes.insert name value })

namespace Graph

/-- One graph comes from another by a new component under a root, or by a new path with an end there. -/
def Brings (g g' : Graph) (root : ComponentId) : Prop :=
  g.size ∈ g'.subtree root ∨
    ∃ p, g'.path? g.paths.size = some p ∧ ∃ c ∈ g'.subtree root, p.touches c

/-- Nothing under a root weighs less than before, and if something new came there all of it weighs more. -/
structure Grows (r : Registry) (g g' : Graph) (root : ComponentId) : Prop
    extends Lighter r g root g' root where
  total_lt : Brings g g' root →
    (Estimate.ofSubtree g r root).total < (Estimate.ofSubtree g' r root).total

section Grows

variable {g g' : Graph} (h : g.WellFormed) {r : Registry} (hpure : r.custom.Pure)
  {root : ComponentId} (hroot : root < g.size)

theorem notMem_subtree_size (h' : Forest g') (hsize : g'.size = g.size) :
    g.size ∉ g'.subtree root := fun hmem => by
  have hlt := h'.lt_size_of_mem_subtree hmem
  rw [hsize] at hlt
  exact Nat.lt_irrefl _ hlt

theorem path?_size_eq_none (hpaths : g'.paths.size = g.paths.size) :
    g'.path? g.paths.size = none :=
  path?_eq_none_of_le (Nat.le_of_eq hpaths)

/-- Where there are no more components and slots than before, nothing new came. -/
theorem Lighter.grows (hlighter : Lighter r g root g' root) (h' : Forest g')
    (hsize : g'.size = g.size) (hpaths : g'.paths.size = g.paths.size) : Grows r g g' root where
  toLighter := hlighter
  total_lt := by
    rintro (hnew | ⟨p, hp, -⟩)
    · exact absurd hnew (notMem_subtree_size h' hsize)
    · rw [path?_size_eq_none hpaths] at hp
      cases hp

include h hroot

theorem WellFormed.grows_self : Grows r g g root :=
  (h.toForest.lighter_of_mem r (h.toForest.mem_subtree_self hroot)).grows h.toForest rfl rfl

include hpure

theorem WellFormed.grows_addComponent (parent : Option ComponentId) (c : Component) :
    Grows r g (g.addComponent parent c).2 root := by
  rcases addComponent_cases g parent c with ⟨p, -, -, heq⟩ | ⟨g', heq, hadd, hparent⟩
  · rw [heq]
    exact h.grows_self hroot
  · rw [heq]
    refine ⟨hadd.lighter h.toForest hparent r hroot, ?_⟩
    rintro (hnew | ⟨p, hp, -⟩)
    · exact hadd.total_lt h.toForest hparent r hroot hpure hnew
    · rw [path?_size_eq_none (by rw [hadd.paths_eq])] at hp
      cases hp

theorem WellFormed.grows_addPath (source target : ComponentId) (orientation : Orientation)
    (type : PathType) (notes : Annotations) :
    Grows r g (g.addPath source target orientation type notes).2 root := by
  rcases addPath_cases g source target orientation type notes with
    ⟨c, -, -, heq⟩ | ⟨g', heq, hsource, htarget, hjoin⟩
  · rw [heq]
    exact h.grows_self hroot
  · rw [heq]
    refine ⟨hjoin.lighter h hsource htarget r hroot, ?_⟩
    rintro (hnew | ⟨p, hp, c, hc, htouches⟩)
    · exact absurd hnew (notMem_subtree_size (h.toForest.congr hjoin.toSameForest)
        hjoin.size_eq)
    · rw [Registered.path?_joined hjoin, if_pos rfl] at hp
      cases hp
      exact hjoin.total_lt h hsource htarget r hroot hpure hc htouches

theorem WellFormed.grows_of_adds {e : Edit} (he : e.Adds g) : Grows r g (e.run g).2 root := by
  cases he with
  | component parent c => exact h.grows_addComponent hpure hroot parent c
  | path source target orientation type bandwidth latency =>
    exact h.grows_addPath hpure hroot source target orientation type _
  | connection source target orientation => exact h.grows_addPath hpure hroot ..
  | componentAttribute id name value hnew =>
    have hlighter : Lighter r g root (g.modifyComponent id fun c =>
        { c with attributes := c.attributes.insert name value }) root :=
      lighter_modifyComponent h.toForest r hroot fun c hc =>
        Nat.add_le_add_left (Attributes.packedSize_insert hpure (hnew c hc) value) _
    exact hlighter.grows (h.modifyComponent id _).toForest
      (sameForest_modifyComponent g id _).size_eq rfl
  | pathAttribute id name value hnew =>
    have hlighter : Lighter r g root (g.modifyPath id fun p =>
        { p with attributes := p.attributes.insert name value }) root :=
      lighter_modifyPath h.toForest r hroot fun p hp =>
        Attributes.packedSize_insert hpure (hnew p hp) value
    exact hlighter.grows (h.modifyPath id _).toForest rfl Array.size_modify

end Grows

/-- The subtree of a component needs so much, whichever calls were made on encoders before: this is its
estimate, unless so many whole pages cannot be counted. -/
def EstimatedAs (g : Graph) (r : Registry) (root : ComponentId) (e : Estimate) : Prop :=
  ∀ calls, (g.estimate r root calls).1 = e.outcome

theorem estimatedAs_ofSubtree (g : Graph) {r : Registry} (hpure : r.custom.Pure)
    {root : ComponentId} (hroot : root < g.size) : g.EstimatedAs r root (.ofSubtree g r root) :=
  fun calls => congrArg Prod.fst (g.estimate_eq hpure hroot calls)

/-- **Estimates grow** with the graph, in one that was made by any edits and with pure encoders.  Adding a
component, a path or an attribute under a new name makes no field of the estimate for a component smaller,
and makes the total larger if it brings a component under that one, or a path with an end there.  Deleting
a path makes no field larger.  And for any component of the subtree no field is larger than for the
subtree itself, so it can be estimated wherever the subtree can. -/
theorem estimate_monotone (list : List Edit) {custom : Table} (hpure : custom.Pure)
    {root : ComponentId} (hroot : root < (Graph.empty.edits list).size) :
    let g := Graph.empty.edits list
    let r : Registry := { custom }
    ∃ before, g.EstimatedAs r root before ∧
      (∀ e : Edit, e.Adds g → ∃ after, (e.run g).2.EstimatedAs r root after ∧
        before.Within after ∧ (g.Brings (e.run g).2 root → before.total < after.total)) ∧
      (∀ id, ∃ after, (g.deletePath id).2.EstimatedAs r root after ∧ after.Within before) ∧
      ∀ c ∈ g.subtree root, ∃ part, g.EstimatedAs r c part ∧ part.Within before := by
  intro g r
  have h : g.WellFormed := WellFormed.empty.edits list
  have hpure : r.custom.Pure := hpure
  refine ⟨.ofSubtree g r root, g.estimatedAs_ofSubtree hpure hroot, ?_, ?_, ?_⟩
  · intro e he
    have hgrows := h.grows_of_adds hpure hroot he
    have hroot' : root < (e.run g).2.size := root_lt_size_of_mem_subtree
      (hgrows.subtree_subperm.subset (h.toForest.mem_subtree_self hroot))
    exact ⟨.ofSubtree (e.run g).2 r root, estimatedAs_ofSubtree _ hpure hroot', hgrows.within hpure,
      hgrows.total_lt⟩
  · intro id
    have hwithout := h.toRegistered.without_deletePath id
    have hroot' : root < (g.deletePath id).2.size := by
      rw [hwithout.size_eq]
      exact hroot
    exact ⟨.ofSubtree (g.deletePath id).2 r root, estimatedAs_ofSubtree _ hpure hroot',
      (hwithout.lighter r h.toForest hroot).within hpure⟩
  · intro c hc
    exact ⟨.ofSubtree g r c, g.estimatedAs_ofSubtree hpure (h.toForest.lt_size_of_mem_subtree hc),
      (h.toForest.lighter_of_mem r hc).within hpure⟩

/-- A thread below the core of a node makes the estimate for the node larger, and so does a path between
the two; the core alone is estimated to need no more than the node. -/
theorem estimate_monotone_node :
    let g := Graph.empty.edits
      [.addComponent none { id := 0, details := .node },
        .addComponent (some 0) { id := 1, details := .core }]
    let thread := Edit.addComponent (some 1) { id := 2, details := .thread }
    let path := Edit.connect 1 0 .oriented
    ∃ estimate, g.EstimatedAs { custom := ∅ } 0 estimate ∧
      (∃ larger, ((thread.run g).2.estimate { custom := ∅ } 0 ∅).1 = .ok larger ∧
        estimate.Within larger ∧ estimate.total < larger.total) ∧
      (∃ larger, ((path.run g).2.estimate { custom := ∅ } 0 ∅).1 = .ok larger ∧
        estimate.Within larger ∧ estimate.total < larger.total) ∧
      ∃ part, g.EstimatedAs { custom := ∅ } 1 part ∧ part.Within estimate := by
  intro g thread path
  obtain ⟨estimate, hestimate, hadds, -, hparts⟩ := estimate_monotone
    [.addComponent none { id := 0, details := .node },
      .addComponent (some 0) { id := 1, details := .core }] Table.pure_empty
    (show 0 < 2 by decide)
  obtain ⟨larger, hlarger, hwithin, hlt⟩ := hadds thread (.component _ _)
  obtain ⟨larger', hlarger', hwithin', hlt'⟩ := hadds path (.connection _ _ _)
  obtain ⟨part, hpart, hpartWithin⟩ := hparts 1 (by decide +kernel)
  have hthread : g.Brings (thread.run g).2 0 := .inl (by decide +kernel)
  have hpath : g.Brings (path.run g).2 0 := .inr ⟨_, rfl, 0, by decide +kernel, rfl⟩
  have hok : ((thread.run g).2.estimate { custom := ∅ } 0 ∅).1 = .ok (.ofBytes 3 127 8) :=
    estimate_eq_ok Table.pure_empty (by decide +kernel) (by decide +kernel) (by decide) ∅
  have hok' : ((path.run g).2.estimate { custom := ∅ } 0 ∅).1 = .ok (.ofBytes 2 82 104) :=
    estimate_eq_ok Table.pure_empty (by decide +kernel) (by decide +kernel) (by decide) ∅
  obtain ⟨-, rfl⟩ := Estimate.outcome_eq_ok.1 ((hlarger ∅).symm.trans hok)
  obtain ⟨-, rfl⟩ := Estimate.outcome_eq_ok.1 ((hlarger' ∅).symm.trans hok')
  exact ⟨estimate, hestimate, ⟨_, hok, hwithin, hlt hthread⟩, ⟨_, hok', hwithin', hlt' hpath⟩, part,
    hpart, hpartWithin⟩

end Graph

end HardwareMap
