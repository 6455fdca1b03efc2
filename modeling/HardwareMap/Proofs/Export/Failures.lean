import HardwareMap.Proofs.Export.Paths
import HardwareMap.Proofs.Region.Confined

/-!
# How writing can fail

Whatever is written to a window, it fails only as a single write can, or because what is to be written is
not there (`Error.Unexportable`).  To a window that is open for writing, of what exists, only two things can
go wrong: there is too little room, or a text holds its own terminator (`Error.Unwritable`).  Neither needs
anything of the estimate, for every write is guarded by itself: being confined to such failures is closed
under sequence and holds of each writer, and so of everything that is put together from writers
(`Graph.confined_writeTree`, `Exporter.unwritable_of_write`).
-/

namespace HardwareMap

/-- What can go wrong with a window that is open for writing. -/
inductive Error.Unwritable : Error → Prop
  | space (requested available : Nat) : Unwritable (.insufficientSpace requested available)
  | text (t : String) : Unwritable (.misuse (.interiorNul t))

/-- What can go wrong with writing anything to any window. -/
inductive Error.Unexportable : Error → Prop
  | space (requested available : Nat) : Unexportable (.insufficientSpace requested available)
  | text (t : String) : Unexportable (.misuse (.interiorNul t))
  | readOnly : Unexportable (.misuse .readOnly)
  | missing (what : Missing) : Unexportable (.missing what)

theorem tolerates_writable : Tolerates (fun w => w.access = .write) Error.Unwritable where
  keeps hw haccess := haccess.trans hw
  space := .space
  text := .text
  readOnly w hw haccess := by
    rw [hw] at haccess
    cases haccess

theorem tolerates_any : Tolerates (fun _ => True) Error.Unexportable where
  keeps _ _ := trivial
  space := .space
  text := .text
  readOnly _ _ _ := .readOnly

variable {α β : Type} {inv : Window → Prop} {blame : Error → Prop} (h : Tolerates inv blame)

/-! ## Writers -/

open Writer (confined_word confined_count confined_text confined_reserve confined_patchCount
  confined_bytes)

include h

namespace Details

theorem confined_write (d : Details) : Confined inv blame d.write := by
  cases d with
  | cache c =>
    exact .bind (confined_word h _).discard fun _ => .bind (confined_text h _).discard fun _ =>
      .bind (confined_word h _).discard fun _ => .bind (confined_word h _).discard fun _ =>
        (confined_word h _).discard
  | subdivision => exact (confined_word h _).discard
  | numa => exact (confined_word h _).discard
  | storage => exact (confined_word h _).discard
  | chip c =>
    exact .bind (confined_text h _).discard fun _ => .bind (confined_text h _).discard fun _ =>
      (confined_word h _).discard
  | memory => exact .bind (confined_word h _).discard fun _ => (confined_word h _).discard
  | generic | thread | core | node | topology => exact .pure _

end Details

theorem Component.confined_writeRecord (c : Component) : Confined inv blame c.writeRecord :=
  .bind (confined_word h _) fun _ => .bind (confined_word h _).discard fun _ =>
    .bind (confined_reserve h _) fun _ => .bind (confined_text h _).discard fun _ =>
      .bind (c.details.confined_write h) fun _ => .pure _

theorem PathRecord.confined_write (p : PathRecord) : Confined inv blame p.write :=
  .bind (confined_count h _).discard fun _ => .bind (confined_count h _).discard fun _ =>
    .bind (confined_word h _).discard fun _ => .bind (confined_word h _).discard fun _ =>
      .bind (confined_word h _).discard fun _ => (confined_word h _).discard

theorem Attributes.confined_writeRecords (records : List (String × Bytes)) :
    Confined inv blame (writeRecords records) := by
  induction records with
  | nil => exact .pure ()
  | cons record rest ih =>
    exact .bind (.bind (confined_text h _).discard fun _ => .bind (confined_count h _).discard fun _ =>
      (confined_bytes h _).discard) fun _ => ih

theorem WriteTask.confined_link (place : Component.RecordPlace) (children : Nat) (slot : Option Nat) :
    Confined inv blame (link place children slot) := by
  have hfill : Confined inv blame (fillSlot slot place.start) := by
    cases slot with
    | none => exact .pure ()
    | some slot => exact confined_patchCount h _ _
  exact .bind (confined_reserve h _) fun _ =>
    .bind (.bind (confined_patchCount h _ _) fun _ => confined_patchCount h _ _) fun _ =>
      .bind hfill fun _ => .pure _

omit h

/-! ## Packers -/

/-- A packer is confined by what it does to its window, whatever the encoders answer. -/
abbrev Packer.Confined (inv : Window → Prop) (blame : Error → Prop) (m : Packer α) : Prop :=
  HardwareMap.Confined (fun pass => inv pass.window) blame m

theorem Packer.confined_writing {m : Writer α} (hm : HardwareMap.Confined inv blame m) :
    Packer.Confined inv blame (writing m) := by
  intro pass hpass
  have hrun := hm pass.window hpass
  unfold writing
  cases heq : m pass.window with
  | ok a w =>
    rw [heq] at hrun
    exact hrun
  | error e w =>
    rw [heq] at hrun
    exact hrun

open Packer (confined_writing)

include h

theorem Attributes.confined_write (a : Attributes) (r : Registry) :
    Packer.Confined inv blame (a.write r) := by
  intro pass hpass
  let packing := r.packAll a.entries pass.calls
  have hsection : Confined inv blame (do
      discard (Writer.count packing.1.packed.length)
      writeRecords packing.1.packed) :=
    .bind (confined_count h _).discard fun _ => confined_writeRecords h _
  have hwrite := (confined_writing hsection).bind fun _ =>
    (.pure packing.1.dropped : Packer.Confined inv blame _)
  exact hwrite { pass with calls := packing.2 } hpass

namespace WriteTask

theorem confined_writeMember (r : Registry) (id : ComponentId) (slot : Option Nat) (m : Member) :
    Packer.Confined inv blame (writeMember r id slot m) :=
  .bind (confined_writing (m.toComponent.confined_writeRecord h)) fun _ =>
    .bind (m.attributes.confined_write h r) fun _ =>
      .bind (confined_writing (confined_link h _ _ _)) fun _ => .pure _

theorem confined_run {g : Graph} (r : Registry) {task : WriteTask}
    (hknown : task.component < g.size ∨ blame (.missing (.component task.component))) :
    Packer.Confined inv blame (task.run g r) := by
  unfold run
  cases hm : g.member? task.component with
  | none =>
    refine .throw (hknown.resolve_left fun hlt => ?_)
    obtain ⟨m, hm'⟩ := Graph.member?_of_lt hlt
    rw [hm] at hm'
    cases hm'
  | some m => exact confined_writeMember h r _ _ m

end WriteTask

/-! ## The whole tree -/

/-- Writing what is known is confined if the children of what is known are known, and if what is known
exists or its absence may be to blame. -/
theorem TreeLayout.confined_runTasks {g : Graph} (r : Registry) (known : ComponentId → Prop)
    (hknown : ∀ c, known c → c < g.size ∨ blame (.missing (.component c)))
    (hchildren : ∀ c, known c → ∀ child ∈ g.children c, known child)
    (tasks : List WriteTask) (layout : TreeLayout) (htasks : ∀ task ∈ tasks, known task.component) :
    Packer.Confined inv blame (runTasks g r tasks layout) := by
  intro pass hpass
  fun_induction runTasks g r tasks layout pass with
  | case1 layout pass => exact hpass
  | case2 layout pass task rest written pass' hrun ih =>
    have hfirst := WriteTask.confined_run h r (hknown _ (htasks task List.mem_cons_self)) pass hpass
    rw [hrun] at hfirst
    refine ih (fun next hnext => ?_) hfirst
    rcases List.mem_append.1 hnext with hchild | hother
    · have hmem : next.component ∈ g.children task.component := by
        rw [← (WriteTask.component_of_run hrun).2]
        exact List.mem_map_of_mem hchild
      exact hchildren _ (htasks task List.mem_cons_self) _ hmem
    · exact htasks next (List.mem_cons_of_mem _ hother)
  | case3 layout pass task rest e pass' hrun =>
    have hfirst := WriteTask.confined_run h r (hknown _ (htasks task List.mem_cons_self)) pass hpass
    rw [hrun] at hfirst
    exact hfirst

/-- A tree that exists is written, or it fails as a single write does. -/
theorem Graph.Forest.confined_writeTree {g : Graph} (hforest : g.Forest) (r : Registry)
    {root : ComponentId} (hroot : root < g.size) :
    Packer.Confined inv blame (g.writeTree r root) := by
  refine TreeLayout.confined_runTasks h r (· < g.size) (fun _ => .inl) (fun c _ child hchild =>
    (hforest.lt_of_mem_children hchild).2) _ _ fun task htask => ?_
  rw [List.mem_singleton.1 htask]
  exact hroot

/-- Any tree is written, or it fails as a single write does or because some of it does not exist. -/
theorem Graph.confined_writeTree (hmissing : ∀ what, blame (.missing what)) (g : Graph) (r : Registry)
    (root : ComponentId) : Packer.Confined inv blame (g.writeTree r root) :=
  TreeLayout.confined_runTasks h r (fun _ => True) (fun _ _ => .inr (hmissing _))
    (fun _ _ _ _ => trivial) _ _ fun _ _ => trivial

/-! ## Paths -/

theorem PathSection.confined_writePathList {g : Graph} (r : Registry)
    {paths : List (PathId × Nat × Nat)}
    (hlive : ∀ entry ∈ paths, (g.path? entry.1).isSome ∨ blame (.missing (.dataPath entry.1))) :
    Packer.Confined inv blame (writePathList g r paths) := by
  induction paths with
  | nil => exact .pure []
  | cons entry rest ih =>
    have hfirst : Packer.Confined inv blame (writePath g r entry.1 entry.2.1 entry.2.2) := by
      unfold writePath
      cases hpath : g.path? entry.1 with
      | none =>
        refine .throw ((hlive entry List.mem_cons_self).resolve_left ?_)
        simp [hpath]
      | some path =>
        exact .bind (confined_writing (PathRecord.confined_write h _)) fun _ =>
          .bind (path.attributes.confined_write h r) fun _ => .pure _
    exact .bind hfirst fun _ =>
      .bind (ih fun other hother => hlive other (List.mem_cons_of_mem _ hother)) fun _ => .pure _

theorem Graph.confined_writePaths {g : Graph} (r : Registry) {pending : PendingPaths}
    (hlive : ∀ entry ∈ pending.resolved,
      (g.path? entry.1).isSome ∨ blame (.missing (.dataPath entry.1))) :
    Packer.Confined inv blame (g.writePaths r pending) :=
  .bind (confined_writing (confined_count h _)) fun _ =>
    .bind (PathSection.confined_writePathList h r hlive) fun _ => .pure _

omit h

/-- Nothing is pending but paths that exist. -/
theorem PendingPaths.path?_isSome {g : Graph} {placements : List Placement} {id : PathId}
    {slot : PendingPath} (h : (ofPlacements g placements).get? id = some slot) :
    (g.path? id).isSome := by
  rw [← Option.ne_none_iff_isSome]
  intro hnone
  have hall : ∀ pending : PendingPaths, (placements.foldl (fun pending placement =>
      notePaths g placement pending (g.pathsOf placement.component .any)) pending).get? id =
        pending.get? id := by
    clear h
    induction placements with
    | nil => exact fun _ => rfl
    | cons placement rest ih =>
      intro pending
      rw [List.foldl_cons, ih, get?_notePaths, hnone]
  rw [ofPlacements, hall] at h
  cases h

/-! ## The phases of an export -/

namespace Exporter

/-- A phase that is entered in order fails as its packer does, and otherwise leaves a window of the
sort. -/
theorem confined_writing {x : Exporter} {former : ExportPhase} (next : ExportPhase)
    (hphase : x.phase = former) {packer : Packer α} (hpacker : Packer.Confined inv blame packer)
    {w : Window} (hw : inv w) :
    match x.writing former next packer w with
    | (.ok _, x', w') => x'.phase = next ∧ x'.graph = x.graph ∧ inv w'
    | (.error e, x', _) => x'.phase = next ∧ blame e := by
  have hrun := hpacker { window := w, calls := x.calls } hw
  simp only [writing, enter, if_pos hphase]
  cases heq : packer { window := w, calls := x.calls } with
  | ok a pass =>
    rw [heq] at hrun
    exact ⟨rfl, rfl, hrun⟩
  | error e pass =>
    rw [heq] at hrun
    exact ⟨rfl, hrun⟩

/-- An export that was sized writes everything, or room or a text is to blame. -/
theorem unwritable_of_write {x : Exporter} (hforest : x.graph.Forest)
    (hphase : x.phase = .sizing) {root : ComponentId} (hroot : root < x.graph.size) {w : Window}
    (haccess : w.access = .write) {e : Error} {x' : Exporter} {w' : Window}
    (h : x.write root w = (.error e, x', w')) : e.Unwritable := by
  have htree := confined_writing .writingTree hphase
    (hforest.confined_writeTree tolerates_writable x.registry hroot) haccess
  unfold write writeTree at h
  split at h
  next heq =>
    cases h
    rw [heq] at htree
    exact htree.2
  next tree x₁ w₁ heq =>
    rw [heq] at htree
    obtain ⟨hphase₁, hgraph, haccess₁⟩ := htree
    have hlive : ∀ entry ∈ (PendingPaths.ofPlacements x₁.graph tree.placements).resolved,
        (x₁.graph.path? entry.1).isSome ∨ Error.Unwritable (.missing (.dataPath entry.1)) :=
      fun entry hentry => .inl (PendingPaths.path?_isSome (PendingPaths.mem_resolved.1 hentry))
    have hpaths := confined_writing .writingEdges hphase₁
      (Graph.confined_writePaths tolerates_writable x₁.registry hlive) haccess₁
    unfold writePaths at h
    split at h
    next heq₁ =>
      cases h
      rw [heq₁] at hpaths
      exact hpaths.2
    next paths x₂ w₂ heq₁ =>
      rw [heq₁] at hpaths
      have henter : x₂.enter .writingEdges .closed = .ok { x₂ with phase := .closed } := by
        rw [enter, if_pos hpaths.1]
      rw [henter] at h
      cases h

end Exporter

end HardwareMap
