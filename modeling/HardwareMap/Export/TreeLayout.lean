import HardwareMap.Layout.AttributeSection
import HardwareMap.Layout.ComponentRecord
import HardwareMap.Region.Room
import HardwareMap.Topology.Graph

/-!
# Writing the tree of a topology

The components of a subtree are written one after the other, each before its children.  Behind a
component its child table is reserved, and the reference to it filled in; a child, once it has a
place, fills in its own word of its parent's table.  `TreeLayout` tells where everything went.

Every component takes room in the window (`WriteTask.takes_run`), which is why the work ends.
-/

namespace HardwareMap

/-- Where a component was written. -/
structure Placement where
  component : ComponentId
  offset : Nat
deriving DecidableEq

/-- An attribute that was left out because no rule accepts it. -/
structure DroppedAttribute where
  owner : AttributeOwner
  name : String
deriving DecidableEq

/-- A tree after it was written. -/
structure TreeLayout where
  /-- The components in the order in which they were written. -/
  placements : List Placement := []
  dropped : List DroppedAttribute := []
  /-- The first byte after the tree. -/
  stop : Nat := 0
deriving DecidableEq

/-- A component to be written, and the table word that is to hold its offset. -/
structure WriteTask where
  component : ComponentId
  slot : Option Nat

/-- A component after it was written. -/
structure WrittenMember where
  placement : Placement
  dropped : List DroppedAttribute
  /-- Its children, in their order. -/
  tasks : List WriteTask

namespace WriteTask

/-- The tasks of writing children whose offsets fill a table. -/
def ofChildren (table : Nat) (children : List ComponentId) : List WriteTask :=
  children.zipIdx.map fun (component, i) => { component, slot := some (table + i * wordSize) }

/-- Fills in the table word that waits for a component's offset. -/
def fillSlot (slot : Option Nat) (offset : Nat) : Writer Unit :=
  match slot with
  | none => return
  | some slot => Writer.patchCount slot offset

/-- Reserves the child table of a component, and fills in the reference to it and the component's
own word in the table of its parent; answers with the offset of the table. -/
def link (place : Component.RecordPlace) (children : Nat) (slot : Option Nat) : Writer Nat := do
  let table ← Writer.reserve (children * wordSize)
  ChildTable.patch place.tableSlot { offset := table, count := children }
  fillSlot slot place.start
  return table

/-- Writes a component with its attributes and its child table. -/
def writeMember (r : Registry) (id : ComponentId) (slot : Option Nat) (m : Member) :
    Packer WrittenMember := do
  let place ← Packer.writing m.toComponent.writeRecord
  let names ← m.attributes.write r
  let table ← Packer.writing (link place m.children.length slot)
  return {
    placement := { component := id, offset := place.start }
    dropped := names.map fun name => { owner := .component id, name }
    tasks := ofChildren table m.children }

/-- Does a task: the component has to exist. -/
def run (g : Graph) (r : Registry) (task : WriteTask) : Packer WrittenMember :=
  match g.member? task.component with
  | none => throw (.missing (.component task.component))
  | some member => writeMember r task.component task.slot member

end WriteTask

/-! ### Every component takes room -/

namespace Packer

theorem takes_writing {α : Type} {n : Nat} {m : Writer α} (h : Takes Window.remaining n m) :
    Takes (fun pass => pass.window.remaining) n (writing m) := by
  intro pass a pass' hm
  unfold writing at hm
  split at hm
  · next b window heq =>
    cases hm
    exact h pass.window a window heq
  · cases hm

end Packer

namespace Details

theorem takes_write (d : Details) : Takes Window.remaining 0 d.write := by
  have word {α : Type} [Word α] (a : α) : Takes Window.remaining 0 (discard (Writer.word a)) :=
    (Writer.takes_word a).discard.mono (Nat.zero_le _)
  have text (t : String) : Takes Window.remaining 0 (discard (Writer.text t)) :=
    (Writer.takes_text t).discard.mono (Nat.zero_le _)
  cases d with
  | cache c =>
    exact .bind (word _) fun _ => .bind (text _) fun _ => .bind (word _) fun _ =>
      .bind (word _) fun _ => word _
  | subdivision => exact word _
  | numa => exact word _
  | storage => exact word _
  | chip c => exact .bind (text _) fun _ => .bind (text _) fun _ => word _
  | memory => exact .bind (word _) fun _ => word _
  | generic | thread | core | node | topology => exact .pure _

end Details

namespace Component

theorem takes_writeRecord (c : Component) : Takes Window.remaining wordSize c.writeRecord :=
  (Takes.bind (Writer.takes_word c.kind.tag) fun _ =>
    .bind (Writer.takes_word c.id).discard fun _ =>
    .bind (Writer.takes_reserve _) fun _ =>
    .bind (Writer.takes_text c.name).discard fun _ =>
    .bind c.details.takes_write fun _ => .pure _).mono (Nat.le_add_right _ _)

end Component

namespace Attributes

theorem takes_writeRecords (records : List (String × Bytes)) :
    Takes Window.remaining 0 (writeRecords records) := by
  induction records with
  | nil => exact .pure _
  | cons record rest ih =>
    exact .mono (.bind (.bind (Writer.takes_text record.1).discard fun _ =>
      .bind (Writer.takes_count _).discard fun _ => (Writer.takes_bytes record.2).discard)
      fun _ => ih) (Nat.zero_le _)

theorem takes_write (a : Attributes) (r : Registry) :
    Takes (fun pass => pass.window.remaining) 0 (a.write r) := by
  intro pass names pass' h
  obtain ⟨_, _, ⟨⟩, h⟩ := bind_eq_ok.1 h
  obtain ⟨_, _, ⟨⟩, h⟩ := bind_eq_ok.1 h
  obtain ⟨_, after, hw, h⟩ := bind_eq_ok.1 h
  cases h
  have hroom := Packer.takes_writing (.mono (.bind (Writer.takes_count _).discard fun _ =>
    takes_writeRecords _) (Nat.zero_le _)) _ _ _ hw
  exact hroom

end Attributes

namespace WriteTask

theorem takes_link (place : Component.RecordPlace) (children : Nat) (slot : Option Nat) :
    Takes Window.remaining 0 (link place children slot) := by
  have fill (offset : Nat) : Takes Window.remaining 0 (fillSlot slot offset) := by
    cases slot with
    | none => exact .pure _
    | some slot => exact Writer.takes_patchCount _ _
  exact .mono (.bind (Writer.takes_reserve _) fun _ =>
    .bind (.bind (Writer.takes_patchCount _ _) fun _ => Writer.takes_patchCount _ _) fun _ =>
    .bind (fill _) fun _ => .pure _) (Nat.zero_le _)

/-- Whatever its details, a written component takes at least the word of its tag. -/
theorem takes_run (g : Graph) (r : Registry) (task : WriteTask) :
    Takes (fun pass => pass.window.remaining) wordSize (task.run g r) := by
  unfold run
  split
  · exact .throw _ _
  · exact .mono (.bind (Packer.takes_writing (Component.takes_writeRecord _)) fun _ =>
      .bind (Attributes.takes_write _ _) fun _ =>
      .bind (Packer.takes_writing (takes_link _ _ _)) fun _ => .pure _) (Nat.le_add_right _ _)

end WriteTask

/-! ### The whole tree -/

namespace TreeLayout

def add (layout : TreeLayout) (written : WrittenMember) : TreeLayout :=
  { layout with
    placements := layout.placements ++ [written.placement]
    dropped := layout.dropped ++ written.dropped }

/-- Does the first task, then those of the component's children, then the others. -/
def runTasks (g : Graph) (r : Registry) (tasks : List WriteTask) (layout : TreeLayout)
    (pass : Pass) : EStateM.Result Error Pass TreeLayout :=
  match tasks with
  | [] => .ok { layout with stop := pass.window.cursor } pass
  | task :: rest =>
    match _h : task.run g r pass with
    | .ok written pass => runTasks g r (written.tasks ++ rest) (layout.add written) pass
    | .error e pass => .error e pass
termination_by pass.window.remaining
decreasing_by
  have := WriteTask.takes_run g r task _ _ _ _h
  simp only [wordSize] at this
  omega

end TreeLayout

def Graph.writeTree (g : Graph) (r : Registry) (root : ComponentId) : Packer TreeLayout :=
  TreeLayout.runTasks g r [{ component := root, slot := none }] {}

end HardwareMap
