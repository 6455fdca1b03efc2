import HardwareMap.Proofs.Attribute.Asked
import HardwareMap.Proofs.Export.Dropped

/-!
# The calls of an export on the encoders of its caller

An export goes through the owners of attributes twice: sizing through the components with the paths at
each of them (`Graph.sizedOwners`), writing through the components and then the paths inside
(`Graph.owners`).  Each time an owner is passed, every encoder of the caller that one of its names has is
called once.  So the number of the call that decides about an attribute can be read off the graph
(`Graph.callsBefore`), and with it what is stored (`Graph.WellFormed.packings_eq`).
-/

namespace HardwareMap

namespace Registry

variable (r : Registry)

/-- The calls that are counted once the attributes of owners were packed one after the other. -/
def callsAfter (visited : List Attributes) (calls : CallLog) : CallLog :=
  visited.foldl (fun calls a => (r.packAll a.entries calls).2) calls

theorem callsAfter_cons (a : Attributes) (rest : List Attributes) (calls : CallLog) :
    r.callsAfter (a :: rest) calls = r.callsAfter rest (r.packAll a.entries calls).2 := rfl

theorem callsAfter_append (visited rest : List Attributes) (calls : CallLog) :
    r.callsAfter (visited ++ rest) calls = r.callsAfter rest (r.callsAfter visited calls) :=
  List.foldl_append

/-- Every owner that has a name adds one call of the encoder of that name. -/
theorem count_callsAfter {r : Registry} (h : r.custom.Uncatalogued) {name : String}
    (hasks : r.Asks name) (visited : List Attributes) (calls : CallLog) :
    (r.callsAfter visited calls).count name =
      calls.count name + visited.countP fun a => a.keys.contains name := by
  induction visited generalizing calls with
  | nil => rfl
  | cons a rest ih =>
    have hcount : (a.entries.map (·.1)).count name = if a.keys.contains name then 1 else 0 := by
      simp only [List.contains_iff_mem]
      exact a.nodup_keys.count
    rw [callsAfter_cons, ih, count_packAll h hasks, hcount, List.countP_cons]
    omega

/-- The attributes of owners after they were packed one after the other. -/
def packOwners : List (AttributeOwner × Attributes) → CallLog →
    List (AttributeOwner × PackedAttributes)
  | [], _ => []
  | (owner, a) :: rest, calls =>
    (owner, (r.packAll a.entries calls).1) :: packOwners rest (r.packAll a.entries calls).2

theorem map_fst_packOwners (owners : List (AttributeOwner × Attributes)) (calls : CallLog) :
    (r.packOwners owners calls).map (·.1) = owners.map (·.1) := by
  induction owners generalizing calls with
  | nil => rfl
  | cons entry rest ih => exact congrArg (entry.1 :: ·) (ih _)

theorem packOwners_append (owners rest : List (AttributeOwner × Attributes)) (calls : CallLog) :
    r.packOwners (owners ++ rest) calls =
      r.packOwners owners calls ++
        r.packOwners rest (r.callsAfter (owners.map (·.2)) calls) := by
  induction owners generalizing calls with
  | nil => rfl
  | cons entry others ih => exact congrArg (_ :: ·) (ih _)

/-- The attributes of an owner are packed after those of the owners before it. -/
theorem packOwners_eq_map {owners : List (AttributeOwner × Attributes)}
    (hnodup : (owners.map (·.1)).Nodup) (calls : CallLog) :
    r.packOwners owners calls = owners.map fun entry =>
      (entry.1, (r.packAll entry.2.entries (r.callsAfter
        ((owners.takeWhile fun other => other.1 != entry.1).map (·.2)) calls)).1) := by
  induction owners generalizing calls with
  | nil => rfl
  | cons entry rest ih =>
    rw [List.map_cons, List.nodup_cons] at hnodup
    rw [packOwners, ih hnodup.2, List.map_cons, List.takeWhile_cons_of_neg (by simp)]
    refine congrArg (_ :: ·) (List.map_congr_left fun other hother => ?_)
    have hne : entry.1 ≠ other.1 := fun heq => hnodup.1 (heq ▸ List.mem_map_of_mem hother)
    rw [List.takeWhile_cons_of_pos (by simp [hne])]
    rfl

end Registry

/-! ## Sizing -/

/-- The owners whose attributes sizing looks at: each component, and then the paths at it.  So a path is
passed at each of its ends. -/
def Graph.sizedOwners (g : Graph) (order : List ComponentId) : List (AttributeOwner × Attributes) :=
  order.flatMap fun c =>
    match g.member? c with
    | none => []
    | some m =>
      (.component c, m.attributes) :: (g.pathsOf c .any).filterMap fun id =>
        (g.path? id).map fun path => (.dataPath id, path.attributes)

namespace Estimate

variable (g : Graph) (r : Registry)

theorem calls_pathListBytes (ids : List PathId) (calls : CallLog) :
    (pathListBytes g r ids calls).2 = r.callsAfter ((ids.filterMap fun id =>
      (g.path? id).map fun path => (AttributeOwner.dataPath id, path.attributes)).map (·.2)) calls := by
  induction ids generalizing calls with
  | nil => rfl
  | cons id rest ih =>
    cases hpath : g.path? id with
    | none =>
      simp only [pathListBytes, hpath]
      rw [ih, List.filterMap_cons_none (by rw [hpath]; rfl)]
    | some path =>
      simp only [pathListBytes, hpath, DataPath.storedSize, Attributes.sectionSize_eq]
      rw [ih, List.filterMap_cons_some (by rw [hpath]; rfl), List.map_cons, Registry.callsAfter_cons]

theorem calls_listBytes (order : List ComponentId) (calls : CallLog) :
    (listBytes g r order calls).2 = r.callsAfter ((g.sizedOwners order).map (·.2)) calls := by
  induction order generalizing calls with
  | nil => rfl
  | cons c rest ih =>
    cases hm : g.member? c with
    | none =>
      simp only [listBytes, Graph.sizedOwners, List.flatMap_cons, hm, List.nil_append]
      exact ih calls
    | some m =>
      simp only [listBytes, Graph.sizedOwners, List.flatMap_cons, hm, memberBytes,
        Attributes.sectionSize_eq, List.map_append, Registry.callsAfter_append, List.map_cons,
        Registry.callsAfter_cons, ← calls_pathListBytes]
      exact ih _

end Estimate

/-- Sizing leaves the calls that it counted. -/
theorem Exporter.calls_of_size {g : Graph} {r : Registry} {root : ComponentId} {estimate : Estimate}
    {x : Exporter} (h : Exporter.size { graph := g, registry := r } root = (.ok estimate, x)) :
    x.calls = r.callsAfter ((g.sizedOwners (g.subtree root)).map (·.2)) ∅ :=
  (needed_of_size h).2.trans (Estimate.calls_listBytes g r (g.subtree root) ∅)

/-! ## Writing -/

theorem Block.packings_blocks (g : Graph) (r : Registry) (order : List ComponentId) (calls : CallLog) :
    let components := order.filterMap fun c =>
      (g.member? c).map fun m => (AttributeOwner.component c, m.attributes)
    (g.blocks r order calls).1.map (fun b => (.component b.id, b.attributes)) =
        r.packOwners components calls ∧
      (g.blocks r order calls).2 = r.callsAfter (components.map (·.2)) calls := by
  induction order generalizing calls with
  | nil => exact ⟨rfl, rfl⟩
  | cons c rest ih =>
    cases hm : g.member? c with
    | none =>
      simp only [Graph.blocks, hm, List.filterMap_cons, Option.map_none]
      exact ih calls
    | some m =>
      obtain ⟨hpacked, hcalls⟩ := ih (r.packAll m.attributes.entries calls).2
      simp only [Graph.blocks_cons hm, List.filterMap_cons, hm, Option.map_some, List.map_cons]
      exact ⟨congrArg (_ :: ·) hpacked, hcalls⟩

theorem PathBlock.packings_ofPaths (r : Registry) (paths : List (PathId × DataPath))
    (calls : CallLog) :
    (ofPaths r paths calls).1.map (fun b => (.dataPath b.id, b.attributes)) =
      r.packOwners (paths.map fun entry => (.dataPath entry.1, entry.2.attributes)) calls := by
  induction paths generalizing calls with
  | nil => rfl
  | cons entry rest ih => exact congrArg (_ :: ·) (ih _)

/-- What is stored are the attributes of the owners, packed one after the other. -/
theorem Graph.packings_eq_packOwners (g : Graph) (r : Registry) (root : ComponentId) (start : Nat)
    (calls : CallLog) :
    (g.storedTopology r root start calls).packings =
      r.packOwners (g.owners (g.subtree root)) calls := by
  obtain ⟨hblocks, hcalls⟩ := Block.packings_blocks g r (g.subtree root) calls
  rw [owners, Registry.packOwners_append, ← hblocks, ← hcalls, ← PathBlock.packings_ofPaths]
  rfl

/-! ## Both passes -/

/-- What is passed, by sizing and by writing, before the attributes of an owner are written. -/
def Graph.passedBefore (g : Graph) (order : List ComponentId) (owner : AttributeOwner) :
    List (AttributeOwner × Attributes) :=
  g.sizedOwners order ++ (g.owners order).takeWhile fun other => other.1 != owner

/-- How often the encoder of a name is called before the attributes of an owner are written. -/
def Graph.callsBefore (g : Graph) (order : List ComponentId) (owner : AttributeOwner)
    (name : String) : Nat :=
  (g.passedBefore order owner).countP fun passed => passed.2.keys.contains name

/-- What a reader with the catalog alone finds of packed attributes, and what was left out of them. -/
structure PackedAttributes.Stores (p : PackedAttributes) (a : Attributes) (r : Registry)
    (earlier : String → Nat) : Prop where
  unpackable : Registry.Unpackable {} p.packed
  recovered_eq : .ofList (Registry.unpackAll {} p.packed) = a.recovered r earlier
  dropped_eq : p.dropped = a.lost r earlier

section Passes

variable {g : Graph} {r : Registry}

theorem Graph.stores_packAll (h : r.custom.Uncatalogued) (order : List ComponentId)
    (owner : AttributeOwner) (a : Attributes) :
    (r.packAll a.entries (r.callsAfter ((g.passedBefore order owner).map (·.2)) ∅)).1.Stores a r
      (g.callsBefore order owner) := by
  have hcount : ∀ name, r.Asks name →
      (r.callsAfter ((g.passedBefore order owner).map (·.2)) ∅).count name =
        g.callsBefore order owner name := by
    intro name hasks
    rw [Registry.count_callsAfter h hasks, CallLog.count_empty, Nat.zero_add, List.countP_map]
    rfl
  exact {
    unpackable := Registry.unpackable_packAll_of_uncatalogued h a.nodup_keys
    recovered_eq :=
      congrArg SortedMap.ofList (Registry.unpackAll_packAll_of_count h a.nodup_keys hcount)
    dropped_eq := Registry.dropped_packAll_of_count h a.nodup_keys hcount }

variable (hwf : g.WellFormed) {root : ComponentId} (hroot : root < g.size)

include hwf hroot

theorem Graph.WellFormed.nodup_owners : ((g.owners (g.subtree root)).map (·.1)).Nodup := by
  have hnodup : ((g.storedTopology {} root 0 ∅).packings.map (·.1)).Nodup :=
    hwf.nodup_packings hroot
  rwa [packings_eq_packOwners, Registry.map_fst_packOwners] at hnodup

/-- After sizing, the attributes of each owner are packed after all that was passed before it. -/
theorem Graph.WellFormed.packings_eq (start : Nat) :
    let order := g.subtree root
    (g.storedTopology r root start (r.callsAfter ((g.sizedOwners order).map (·.2)) ∅)).packings =
      (g.owners order).map fun entry => (entry.1, (r.packAll entry.2.entries
        (r.callsAfter ((g.passedBefore order entry.1).map (·.2)) ∅)).1) := by
  intro order
  rw [packings_eq_packOwners, Registry.packOwners_eq_map _ (hwf.nodup_owners hroot)]
  simp only [passedBefore, List.map_append, Registry.callsAfter_append]
  rfl

variable (start : Nat) (h : r.custom.Uncatalogued)

include h

/-- Every block stores the attributes of its component. -/
theorem Graph.WellFormed.stores_blocks :
    let order := g.subtree root
    let calls := r.callsAfter ((g.sizedOwners order).map (·.2)) ∅
    ∀ b ∈ (g.storedTopology r root start calls).blocks,
      b.attributes.Stores b.member.attributes r (g.callsBefore order (.component b.id)) := by
  intro order calls b hb
  obtain ⟨-, hold, -⟩ := Block.exists_packAll_of_mem hb
  have hmem : (.component b.id, b.attributes) ∈ (g.storedTopology r root start calls).packings :=
    List.mem_append_left _ (List.mem_map_of_mem hb)
  rw [hwf.packings_eq hroot start] at hmem
  obtain ⟨⟨owner, a⟩, howner, heq⟩ := List.mem_map.1 hmem
  obtain ⟨rfl, hpacked⟩ := Prod.mk.inj heq
  have ha : a = b.member.attributes := by
    rcases List.mem_append.1 howner with hcomponent | hpath
    · obtain ⟨c, -, hc⟩ := List.mem_filterMap.1 hcomponent
      obtain ⟨m, hm, hentry⟩ := Option.map_eq_some_iff.1 hc
      cases hentry
      rw [Option.some.inj (hm.symm.trans hold)]
    · obtain ⟨entry, -, hentry⟩ := List.mem_map.1 hpath
      cases hentry
  rw [← hpacked, ← ha]
  exact stores_packAll h order _ a

/-- Every block of a path stores the attributes of its path. -/
theorem Graph.WellFormed.stores_paths :
    let order := g.subtree root
    let calls := r.callsAfter ((g.sizedOwners order).map (·.2)) ∅
    ∀ b ∈ (g.storedTopology r root start calls).paths,
      b.attributes.Stores b.path.attributes r (g.callsBefore order (.dataPath b.id)) := by
  intro order calls b hb
  obtain ⟨hinner, -⟩ := PathBlock.exists_packAll_of_mem hb
  have hold : g.path? b.id = some b.path := (mem_innerPaths.1 hinner).1
  have hmem : (.dataPath b.id, b.attributes) ∈ (g.storedTopology r root start calls).packings :=
    List.mem_append_right _ (List.mem_map_of_mem hb)
  rw [hwf.packings_eq hroot start] at hmem
  obtain ⟨⟨owner, a⟩, howner, heq⟩ := List.mem_map.1 hmem
  obtain ⟨rfl, hpacked⟩ := Prod.mk.inj heq
  have ha : a = b.path.attributes := by
    rcases List.mem_append.1 howner with hcomponent | hpath
    · obtain ⟨c, -, hc⟩ := List.mem_filterMap.1 hcomponent
      obtain ⟨m, -, hentry⟩ := Option.map_eq_some_iff.1 hc
      cases hentry
    · obtain ⟨⟨id, path⟩, hentry, heq'⟩ := List.mem_map.1 hpath
      cases heq'
      rw [Option.some.inj ((mem_innerPaths.1 hentry).1.symm.trans hold)]
  rw [← hpacked, ← ha]
  exact stores_packAll h order _ a

/-- What is reported as left out are the attributes of which nothing is found, owner by owner. -/
theorem Graph.WellFormed.dropped_eq_lost {report : ExportReport} :
    let order := g.subtree root
    let calls := r.callsAfter ((g.sizedOwners order).map (·.2)) ∅
    (g.storedTopology r root start calls).Reported g report →
      report.dropped = (g.owners order).flatMap fun owner =>
        (owner.2.lost r (g.callsBefore order owner.1)).map fun name => { owner := owner.1, name } := by
  intro order calls hreported
  rw [hreported.dropped_eq_flatMap, hwf.packings_eq hroot start, List.flatMap_map]
  refine List.flatMap_congr fun owner _ => ?_
  rw [(stores_packAll h order owner.1 owner.2).dropped_eq]

end Passes

end HardwareMap
