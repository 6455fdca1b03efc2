import HardwareMap.Proofs.Export.File

/-!
# What an export leaves out

Packing goes through the attributes of an owner once, and each name is then either packed or left out
(`Registry.perm_packAll`).  The report of an export lists what was left out owner by owner: that of the
components of the subtree and then that of the paths inside of it (`Graph.owners`).
-/

namespace HardwareMap

namespace Registry

variable (r : Registry) (entries : List (String × Value)) (calls : CallLog)

theorem sublist_packed :
    ((r.packAll entries calls).1.packed.map (·.1)).Sublist (entries.map (·.1)) := by
  induction entries generalizing calls with
  | nil => exact .slnil
  | cons entry rest ih =>
    rw [packAll_cons]
    cases (r.pack entry.1 entry.2 calls).1 with
    | none => exact (ih _).cons _
    | some payload => exact (ih _).cons_cons _

theorem sublist_dropped : (r.packAll entries calls).1.dropped.Sublist (entries.map (·.1)) := by
  induction entries generalizing calls with
  | nil => exact .slnil
  | cons entry rest ih =>
    rw [packAll_cons]
    cases (r.pack entry.1 entry.2 calls).1 with
    | none => exact (ih _).cons_cons _
    | some payload => exact (ih _).cons _

/-- Each name is packed or left out. -/
theorem perm_packAll :
    ((r.packAll entries calls).1.packed.map (·.1) ++ (r.packAll entries calls).1.dropped).Perm
      (entries.map (·.1)) := by
  induction entries generalizing calls with
  | nil => exact .nil
  | cons entry rest ih =>
    rw [packAll_cons]
    cases (r.pack entry.1 entry.2 calls).1 with
    | none => exact List.perm_middle.trans ((ih _).cons _)
    | some payload => exact (ih _).cons _

end Registry

/-- The names of attributes are in the order of their bytes. -/
theorem Attributes.keys_ascending (a : Attributes) :
    a.keys.Pairwise fun name name' => Utf8.encode name < Utf8.encode name' :=
  List.pairwise_map.2 (a.ascending.imp Utf8.encode_lt_of_compare)

theorem Attributes.nodup_keys (a : Attributes) : a.keys.Nodup := by
  refine a.keys_ascending.imp fun hlt heq => ?_
  rw [heq] at hlt
  exact List.lt_irrefl _ hlt

/-! ## The owners of what is packed -/

/-- Whose attributes are stored together with some components: these in turn, then the paths inside. -/
def Graph.owners (g : Graph) (order : List ComponentId) : List (AttributeOwner × Attributes) :=
  (order.filterMap fun c => (g.member? c).map fun m => (.component c, m.attributes)) ++
    (g.innerPaths order).map fun entry => (.dataPath entry.1, entry.2.attributes)

/-- The owners of the attributes that a topology stores, with these after packing. -/
def StoredTopology.packings (s : StoredTopology) : List (AttributeOwner × PackedAttributes) :=
  s.blocks.map (fun b => (.component b.id, b.attributes)) ++
    s.paths.map fun b => (.dataPath b.id, b.attributes)

theorem StoredTopology.Reported.dropped_eq_flatMap {s : StoredTopology} {g : Graph}
    {report : ExportReport} (h : s.Reported g report) :
    report.dropped = s.packings.flatMap fun owner =>
      owner.2.dropped.map fun name => { owner := owner.1, name } := by
  rw [h.dropped_eq, packings, List.flatMap_append, List.flatMap_map, List.flatMap_map]
  rfl

/-- With pure encoders every owner's attributes are packed by themselves. -/
theorem Graph.packings_storedTopology (g : Graph) {r : Registry} (hpure : r.custom.Pure)
    (root : ComponentId) (start : Nat) (calls : CallLog) :
    (g.storedTopology r root start calls).packings =
      (g.owners (g.subtree root)).map fun owner => (owner.1, r.packed owner.2.entries) := by
  rw [StoredTopology.packings, owners, List.map_append, List.map_map]
  refine congrArg₂ (· ++ ·) ?_ ?_
  · rw [storedTopology]
    simp only [blocks_eq hpure, List.map_filterMap, Option.map_map]
    rfl
  · rw [storedTopology]
    simp only [PathBlock.ofPaths_eq hpure, List.map_map]
    rfl

section Owners

variable {g : Graph} (hwf : g.WellFormed) {r : Registry} {root : ComponentId} (hroot : root < g.size)
  {start : Nat} {calls : CallLog}

include hwf hroot

/-- No owner is listed twice. -/
theorem Graph.WellFormed.nodup_packings :
    ((g.storedTopology r root start calls).packings.map (·.1)).Nodup := by
  have hblocks := List.pairwise_map.1 (hwf.nodup_blocks r hroot start calls)
  have hpaths := g.nodup_innerPaths (g.subtree root)
  rw [← g.map_id_paths r root start calls] at hpaths
  rw [StoredTopology.packings, List.map_append, List.map_map, List.map_map, List.nodup_append]
  refine ⟨?_, ?_, ?_⟩
  · exact List.pairwise_map.2 (hblocks.imp fun hne heq => hne (AttributeOwner.component.inj heq))
  · exact List.pairwise_map.2
      ((List.pairwise_map.1 hpaths).imp fun hne heq => hne (AttributeOwner.dataPath.inj heq))
  · intro owner howner owner' howner' heq
    obtain ⟨b, -, rfl⟩ := List.mem_map.1 howner
    obtain ⟨b', -, rfl⟩ := List.mem_map.1 howner'
    cases heq

end Owners

theorem Graph.exists_packAll_of_mem_packings {g : Graph} {r : Registry} {root : ComponentId}
    {start : Nat} {calls : CallLog} {owner : AttributeOwner} {p : PackedAttributes}
    (h : (owner, p) ∈ (g.storedTopology r root start calls).packings) :
    ∃ (a : Attributes) (earlier : CallLog), p = (r.packAll a.entries earlier).1 := by
  rcases List.mem_append.1 h with hblock | hpath
  · obtain ⟨b, hb, heq⟩ := List.mem_map.1 hblock
    obtain ⟨-, -, earlier, hpacked⟩ := Block.exists_packAll_of_mem hb
    cases heq
    exact ⟨_, earlier, hpacked⟩
  · obtain ⟨b, hb, heq⟩ := List.mem_map.1 hpath
    obtain ⟨-, earlier, hpacked⟩ := PathBlock.exists_packAll_of_mem hb
    cases heq
    exact ⟨_, earlier, hpacked⟩

namespace StoredTopology.Reported

variable {s : StoredTopology} {g : Graph} {report : ExportReport} (h : s.Reported g report)
  (howners : (s.packings.map (·.1)).Nodup)

include h howners

/-- Reported of an owner are the names that were left out when its attributes were packed. -/
theorem mem_dropped {owner : AttributeOwner} {p : PackedAttributes} (hp : (owner, p) ∈ s.packings)
    (name : String) : { owner, name } ∈ report.dropped ↔ name ∈ p.dropped := by
  rw [h.dropped_eq_flatMap, List.mem_flatMap]
  constructor
  · rintro ⟨⟨owner', p'⟩, hp', hname⟩
    obtain ⟨name', hname', heq⟩ := List.mem_map.1 hname
    cases heq
    cases List.inj_on_of_nodup_map howners hp hp' rfl
    exact hname'
  · intro hname
    exact ⟨(owner, p), hp, List.mem_map_of_mem hname⟩

/-- Nothing is reported twice, if no owner has left out a name twice. -/
theorem nodup_dropped (hnames : ∀ owner ∈ s.packings, owner.2.dropped.Nodup) :
    report.dropped.Nodup := by
  rw [h.dropped_eq_flatMap, List.nodup_flatMap]
  refine ⟨fun owner howner => ?_, (List.pairwise_map.1 howners).imp fun hne => ?_⟩
  · exact (hnames owner howner).map fun _ _ heq => (DroppedAttribute.mk.inj heq).2
  · intro entry hleft hright
    obtain ⟨name, -, rfl⟩ := List.mem_map.1 hleft
    obtain ⟨name', -, heq⟩ := List.mem_map.1 hright
    exact hne (DroppedAttribute.mk.inj heq).1.symm

end StoredTopology.Reported

end HardwareMap
