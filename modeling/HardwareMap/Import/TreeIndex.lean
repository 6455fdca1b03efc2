import HardwareMap.Layout.AttributeSection
import HardwareMap.Layout.ComponentRecord
import HardwareMap.Region.Room
import HardwareMap.Topology.Graph

/-!
# Reading the tree of a topology

The tree is read from offset 0 on.  A component record leads to the offsets of its children, which
are read before whatever else is waiting; an offset that was read before is refused, so the offsets
form a tree.  `TreeIndex` tells which component stands at which offset.

An offset that is read lies inside the region, so the number of offsets inside it that are still
unread goes down (`TreeIndex.unread_insert_lt`), which is why the work ends, whatever the region
holds.
-/

namespace HardwareMap

/-- The components that were read. -/
structure TreeIndex where
  /-- Components by the offsets of their records. -/
  offsets : SortedMap Nat ComponentId := ∅
  /-- The first byte after all records, attributes and child tables. -/
  stop : Nat := 0
deriving DecidableEq

/-- What a reading computation leaves behind: a graph and the cursor of the region. -/
structure Intake where
  graph : Graph
  cursor : Nat
deriving DecidableEq

/-- A component to be read, and its parent. -/
structure ReadTask where
  offset : Nat
  parent : Option ComponentId
deriving DecidableEq

/-- A component after it was read. -/
structure ReadMember where
  component : Component
  /-- The offsets of its children. -/
  children : List Nat
  /-- The end of its attributes or of its child table, whichever is later. -/
  stop : Nat
deriving DecidableEq

namespace ReadMember

/-- Reads the component at an offset, with its attributes and the offsets of its children. -/
def readAt (r : Registry) (offset : Nat) : Reader ReadMember := do
  Reader.seek offset
  let (component, table) ← Component.readRecord
  let attributes ← Attributes.read r
  let stop ← Reader.position
  let children ← table.offsets
  let tableStop ← Reader.add table.offset (← Reader.mul children.length wordSize)
  return { component := { component with attributes }, children, stop := max stop tableStop }

/-- A component that can be read starts inside the region. -/
theorem offset_lt_of_readAt {r : Registry} {offset : Nat} {bytes : Bytes} {cursor cursor' : Nat}
    {read : ReadMember} (h : readAt r offset bytes cursor = .ok read cursor') :
    offset < bytes.length := by
  obtain ⟨_, start, hseek, h⟩ := Reader.bind_eq_ok.1 h
  obtain ⟨_, _, -, hmove⟩ := Reader.bind_eq_ok.1 hseek
  cases hmove
  obtain ⟨_, _, hrecord, -⟩ := Reader.bind_eq_ok.1 h
  obtain ⟨_, _, ⟨⟩, hrecord⟩ := Reader.bind_eq_ok.1 hrecord
  obtain ⟨_, _, hword, -⟩ := Reader.bind_eq_ok.1 hrecord
  obtain ⟨_, _, ⟨⟩, hword⟩ := Reader.bind_eq_ok.1 hword
  obtain ⟨_, _, hat, -⟩ := Reader.bind_eq_ok.1 hword
  obtain ⟨_, _, hbytes, -⟩ := Reader.bind_eq_ok.1 hat
  obtain ⟨_, _, hrange, -⟩ := Reader.bind_eq_ok.1 hbytes
  have hle := (Reader.range_eq_ok.1 hrange).2.1
  have hwidth : 0 < Word.width UInt64 := by decide
  omega

end ReadMember

namespace TreeIndex

def insert (index : TreeIndex) (offset : Nat) (id : ComponentId) (stop : Nat) : TreeIndex :=
  { offsets := index.offsets.insert offset id, stop := max index.stop stop }

/-- The number of offsets in a region of a size that are not read yet. -/
def unread (index : TreeIndex) (size : Nat) : Nat :=
  ((List.range size).filter fun offset => !index.offsets.contains offset).length

/-- A test that is passed less often than another, and at one place fails where the other passes,
counts fewer places. -/
theorem countP_lt_of_mem {α : Type} {p q : α → Bool} {a : α} {l : List α}
    (hle : ∀ x, p x = true → q x = true) (ha : a ∈ l) (hp : p a = false) (hq : q a = true) :
    l.countP p < l.countP q := by
  induction l with
  | nil => cases ha
  | cons x rest ih =>
    rcases List.mem_cons.1 ha with rfl | hmem
    · have := List.countP_mono_left (l := rest) fun x _ => hle x
      simp only [List.countP_cons, hp, hq]
      simp
      omega
    · have := ih hmem
      have := hle x
      simp only [List.countP_cons]
      by_cases hx : p x = true
      · simp [hx, hle x hx]
        omega
      · simp [hx]
        omega

/-- Reading an offset inside the region leaves fewer of them unread. -/
theorem unread_insert_lt {index : TreeIndex} {offset size : Nat} (id : ComponentId) (stop : Nat)
    (hin : offset < size) (hnew : index.offsets.contains offset = false) :
    (index.insert offset id stop).unread size < index.unread size := by
  simp only [unread, insert, SortedMap.contains_insert, ← List.countP_eq_length_filter]
  exact countP_lt_of_mem (by simp_all) (List.mem_range.2 hin) (by simp) (by simp [hnew])

/-- Reads the first waiting component, then its children, then the others. -/
def readTasks (r : Registry) (bytes : Bytes) (tasks : List ReadTask) (index : TreeIndex)
    (intake : Intake) : EStateM.Result Error Intake TreeIndex :=
  match tasks with
  | [] => .ok index intake
  | task :: rest =>
    if _hnew : index.offsets.contains task.offset then
      .error (.malformed task.offset .referencedTwice) intake
    else
      match _h : ReadMember.readAt r task.offset bytes intake.cursor with
      | .error e cursor => .error e { intake with cursor }
      | .ok read cursor =>
        match intake.graph.addComponent task.parent read.component with
        | (.error e, graph) => .error e { graph, cursor }
        | (.ok id, graph) =>
          let tasks := read.children.map fun offset => { offset, parent := some id }
          readTasks r bytes (tasks ++ rest) (index.insert task.offset id read.stop)
            { graph, cursor }
termination_by index.unread bytes.length
decreasing_by
  exact unread_insert_lt _ _ (ReadMember.offset_lt_of_readAt _h) (Bool.eq_false_iff.2 _hnew)

end TreeIndex

end HardwareMap
