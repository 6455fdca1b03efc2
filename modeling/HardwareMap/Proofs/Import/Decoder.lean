import HardwareMap.Import.Importer
import HardwareMap.Proofs.Import.Tree
import HardwareMap.Proofs.Layout.Safety
import Mathlib.Data.List.Induction

/-!
# The recursive decoder of a tree

A tree is decoded by recursion: the component at an offset, then the components at the offsets in
its child table, each with all below it, and then whatever stands beside it (`Decoding.decode`).
What was decoded is a list of records in this order.  The number of a component is its position in
the list, and an offset that is in the list already is refused.

Working off a list of waiting tasks comes to the same: the tasks ahead of the others are done as the
decoder does them (`TreeIndex.readTasks_eq_decode`).
-/

namespace HardwareMap

/-! ## Records -/

/-- A component as it stands in a region, with what belongs to it. -/
structure MemberRecord where
  component : Component
  table : ChildTable
  /-- The offsets in the child table. -/
  children : List Nat
  /-- The end of the record with its attributes. -/
  stop : Nat

namespace MemberRecord

/-- Reads the record at an offset, the attributes behind it and the offsets in its child table. -/
def readAt (r : Registry) (offset : Nat) : Reader MemberRecord := do
  Reader.seek offset
  let (component, table) ← Component.readRecord
  let attributes ← Attributes.read r
  let stop ← Reader.position
  let children ← table.offsets
  return { component := { component with attributes }, table, children, stop }

/-- The end of the record with its attributes or of the child table, whichever is later. -/
def last (m : MemberRecord) : Nat := max m.stop (m.table.offset + m.table.count * wordSize)

def member (m : MemberRecord) : ReadMember :=
  { component := m.component, children := m.children, stop := m.last }

end MemberRecord

theorem Reader.bind_apply {α β : Type} (m : Reader α) (f : α → Reader β) (bytes : Bytes) (s : Nat) :
    (m >>= f) bytes s =
      match m bytes s with
      | .ok a s => f a bytes s
      | .error e s => .error e s := by
  cases h : m bytes s with
  | ok a s' => exact bind_of_ok (m := m bytes) h
  | error e s' => exact bind_of_error (m := m bytes) h

/-- A table that can be read has as many offsets as it says, and its end is a machine word. -/
theorem ChildTable.offsets_eq_ok {t : ChildTable} {bytes : Bytes} {s s' : Nat} {children : List Nat}
    (h : t.offsets bytes s = .ok children s') :
    children.length = t.count ∧ t.offset + t.count * wordSize < UInt64.size ∧ s' = s := by
  unfold offsets size? checkedMul? at h
  by_cases hsize : t.count * wordSize < UInt64.size
  · rw [if_pos hsize] at h
    obtain ⟨data, _, hdata, hwords⟩ := Reader.bind_eq_ok.1 h
    obtain ⟨stop, _, hrange, hslice⟩ := Reader.bind_eq_ok.1 hdata
    obtain ⟨hsum, hle, rfl, rfl⟩ := Reader.range_eq_ok.1 hrange
    rw [Reader.slice_eq (Nat.le_add_right _ _) hle] at hslice
    cases hslice
    cases hwords
    exact ⟨length_wordsOf _ _, hsum, rfl⟩
  · rw [if_neg hsize] at h
    cases h

/-- The unchecked sums behind a record never fail. -/
theorem ReadMember.readAt_eq_record (r : Registry) (offset : Nat) (bytes : Bytes) (s : Nat) :
    readAt r offset bytes s =
      match MemberRecord.readAt r offset bytes s with
      | .ok m s => .ok m.member s
      | .error e s => .error e s := by
  unfold readAt MemberRecord.readAt
  simp only [Reader.bind_apply]
  rcases Reader.seek offset bytes s with ⟨_, s⟩ | ⟨e, s⟩
  · simp only
    rcases Component.readRecord bytes s with ⟨⟨component, table⟩, s⟩ | ⟨e, s⟩
    · simp only
      rcases Attributes.read r bytes s with ⟨attributes, s⟩ | ⟨e, s⟩
      · have hposition : Reader.position bytes s = .ok s s := rfl
        simp only [hposition]
        rcases htable : table.offsets bytes s with ⟨children, s⟩ | ⟨e, s⟩
        · obtain ⟨hcount, hlt, rfl⟩ := ChildTable.offsets_eq_ok htable
          rw [← hcount] at hlt
          have hmul := Reader.mul_eq (m := children.length) (n := wordSize) (by omega) bytes s
          simp only [hmul, Reader.add_eq hlt bytes s]
          rw [hcount]
          rfl
        · rfl
      · rfl
    · rfl
  · rfl

namespace MemberRecord

variable {r : Registry} {offset s s' : Nat} {bytes : Bytes} {m : MemberRecord}

theorem offset_lt_of_readAt (h : readAt r offset bytes s = .ok m s') : offset < bytes.length := by
  have hmember := ReadMember.readAt_eq_record r offset bytes s
  rw [h] at hmember
  exact ReadMember.offset_lt_of_readAt hmember

/-- A record that can be read is the same from wherever the cursor comes. -/
theorem readAt_of_readAt (h : readAt r offset bytes s = .ok m s') (start : Nat) :
    readAt r offset bytes start = .ok m s' := by
  obtain ⟨_, _, hseek, h⟩ := Reader.bind_eq_ok.1 h
  have hstart := Reader.seek_eq_ok.1 hseek
  exact Reader.bind_eq_ok.2 ⟨(), _, Reader.seek_eq_ok.2 hstart, h⟩

end MemberRecord

/-! ## The decoder -/

/-- A component that was decoded. -/
structure Decoded where
  offset : Nat
  parent : Option ComponentId
  record : MemberRecord

/-- What was decoded so far, and the cursor of the region. -/
structure Decoding where
  members : List Decoded := []
  cursor : Nat

namespace Decoding

def offsets (d : Decoding) : List Nat := d.members.map (·.offset)

def push (d : Decoding) (m : Decoded) (cursor : Nat) : Decoding :=
  { members := d.members ++ [m], cursor }

/-- The number of offsets in a region of a size that were not decoded. -/
def unread (d : Decoding) (size : Nat) : Nat :=
  (List.range size).countP fun offset => decide (offset ∉ d.offsets)

theorem unread_push_lt {d : Decoding} {m : Decoded} {size : Nat} (cursor : Nat)
    (hin : m.offset < size) (hnew : m.offset ∉ d.offsets) :
    (d.push m cursor).unread size < d.unread size := by
  have hpush : (d.push m cursor).offsets = d.offsets ++ [m.offset] := by
    simp only [offsets, push, List.map_append, List.map_singleton]
  unfold unread
  rw [hpush]
  refine TreeIndex.countP_lt_of_mem (fun offset h => ?_) (List.mem_range.2 hin) ?_ ?_
  · simp only [List.mem_append, not_or, decide_eq_true_eq] at h
    exact decide_eq_true h.1
  · simp
  · exact decide_eq_true hnew

/-- Decodes the components at a list of offsets, each with all below it.  Their parent is given, and
numbers start at `base`.  A failure comes with what was decoded before. -/
def decode (r : Registry) (bytes : Bytes) (base : Nat) (offsets : List Nat)
    (parent : Option ComponentId) (d : Decoding) :
    Except (Error × Decoding) { d' : Decoding // d'.unread bytes.length ≤ d.unread bytes.length } :=
  match offsets with
  | [] => .ok ⟨d, Nat.le_refl _⟩
  | offset :: rest =>
    if hnew : offset ∈ d.offsets then .error (.malformed offset .referencedTwice, d)
    else
      match hread : MemberRecord.readAt r offset bytes d.cursor with
      | .error e cursor => .error (e, { d with cursor })
      | .ok record cursor =>
        have hlt : (d.push { offset, parent, record } cursor).unread bytes.length <
            d.unread bytes.length :=
          unread_push_lt cursor (MemberRecord.offset_lt_of_readAt hread) hnew
        match decode r bytes base record.children (some (base + d.members.length))
          (d.push { offset, parent, record } cursor) with
        | .error failure => .error failure
        | .ok ⟨below, hbelow⟩ =>
          match decode r bytes base rest parent below with
          | .error failure => .error failure
          | .ok ⟨beside, hbeside⟩ =>
            .ok ⟨beside, Nat.le_trans hbeside (Nat.le_trans hbelow (Nat.le_of_lt hlt))⟩
termination_by (d.unread bytes.length, offsets.length)

/-- Decodes the tree at the start of a region. -/
def ofRegion (r : Registry) (bytes : Bytes) (base cursor : Nat) :
    Except (Error × Decoding) Decoding :=
  match decode r bytes base [0] none { cursor } with
  | .error failure => .error failure
  | .ok d => .ok d.val

/-- Decoded components by their offsets, and the end of all that belongs to them. -/
def index (base : Nat) (d : Decoding) : TreeIndex where
  offsets := .ofList ((d.members.zipIdx base).map fun (m, id) => (m.offset, id))
  stop := (d.members.map (·.record.last)).foldl max 0

/-- A graph with the decoded components added in turn. -/
def graph (g : Graph) (d : Decoding) : Graph :=
  d.members.foldl (fun g m => (g.addComponent m.parent m.record.component).2) g

variable {r : Registry} {bytes : Bytes} {base : Nat} {parent : Option ComponentId}

theorem index_push (base : Nat) (d : Decoding) (m : Decoded) (cursor : Nat) :
    (d.push m cursor).index base =
      (d.index base).insert m.offset (base + d.members.length) m.record.last := by
  simp only [index, push, TreeIndex.insert, List.zipIdx_append, List.map_append, List.foldl_append,
    SortedMap.ofList, SortedMap.insertAll]
  rfl

theorem length_push (d : Decoding) (m : Decoded) (cursor : Nat) :
    (d.push m cursor).members.length = d.members.length + 1 := by
  rw [push, List.length_append, List.length_singleton]

theorem graph_push (g : Graph) (d : Decoding) (m : Decoded) (cursor : Nat) :
    (d.push m cursor).graph g = ((d.graph g).addComponent m.parent m.record.component).2 := by
  rw [graph, push, List.foldl_append]
  rfl

theorem contains_index (base : Nat) (d : Decoding) (offset : Nat) :
    (d.index base).offsets.contains offset = decide (offset ∈ d.offsets) := by
  obtain ⟨members, cursor⟩ := d
  induction members using List.reverseRecOn with
  | nil => rfl
  | append_singleton members m ih =>
    have hpush := index_push base ⟨members, cursor⟩ m cursor
    rw [push] at hpush
    rw [hpush, TreeIndex.insert, SortedMap.contains_insert, ih]
    simp only [offsets, List.map_append, List.map_singleton, List.mem_append, List.mem_singleton,
      eq_comm (a := m.offset), Bool.decide_or]
    exact Bool.or_comm _ _

end Decoding

namespace TreeIndex

open Decoding

/-- The tasks of reading components below one parent. -/
def tasksOf (parent : Option ComponentId) (offsets : List Nat) : List ReadTask :=
  offsets.map fun offset => { offset, parent }

variable {g : Graph} {r : Registry} {bytes : Bytes} {offset : Nat} {parent : Option ComponentId}
  {d : Decoding} (rest : List Nat) (waiting : List ReadTask)

/-- An offset that was decoded before is refused. -/
theorem readTasks_of_mem (hseen : offset ∈ d.offsets) (intake : Intake) :
    readTasks r bytes (tasksOf parent (offset :: rest) ++ waiting) (d.index g.size) intake =
      .error (.malformed offset .referencedTwice) intake := by
  have hcontains : (d.index g.size).offsets.contains offset = true := by
    rw [contains_index, decide_eq_true hseen]
  rw [tasksOf, List.map_cons, List.cons_append, readTasks, dif_pos hcontains]

/-- A record that cannot be read ends the reading. -/
theorem readTasks_of_readAt_error {e : Error} {cursor cursor' : Nat} (hnew : offset ∉ d.offsets)
    (hread : MemberRecord.readAt r offset bytes cursor = .error e cursor') (graph : Graph) :
    readTasks r bytes (tasksOf parent (offset :: rest) ++ waiting) (d.index g.size)
      ⟨graph, cursor⟩ = .error e ⟨graph, cursor'⟩ := by
  have hcontains : ¬ (d.index g.size).offsets.contains offset = true := by
    rw [contains_index, decide_eq_false hnew]
    exact Bool.false_ne_true
  have hmember := ReadMember.readAt_eq_record r offset bytes cursor
  simp only [hread] at hmember
  rw [tasksOf, List.map_cons, List.cons_append, readTasks, dif_neg hcontains]
  split
  next h =>
    rw [hmember] at h
    cases h
    rfl
  next h =>
    rw [hmember] at h
    cases h

/-- A record that is read goes under its parent, and the offsets in its child table are next. -/
theorem readTasks_of_readAt_ok {record : MemberRecord} {cursor : Nat} (hnew : offset ∉ d.offsets)
    (hread : MemberRecord.readAt r offset bytes d.cursor = .ok record cursor)
    (hsize : (d.graph g).size = g.size + d.members.length)
    (hparent : ∀ p, parent = some p → p < g.size + d.members.length) :
    let d' := d.push { offset, parent, record } cursor
    readTasks r bytes (tasksOf parent (offset :: rest) ++ waiting) (d.index g.size)
        ⟨d.graph g, d.cursor⟩ =
      readTasks r bytes (tasksOf (some (g.size + d.members.length)) record.children ++
        (tasksOf parent rest ++ waiting)) (d'.index g.size) ⟨d'.graph g, d'.cursor⟩ ∧
      (d'.graph g).size = g.size + d'.members.length ∧
      ∀ p, some (g.size + d.members.length) = some p → p < g.size + d'.members.length := by
  intro d'
  have hcontains : (d.index g.size).offsets.contains offset = false := by
    rw [contains_index, decide_eq_false hnew]
  have hmember := ReadMember.readAt_eq_record r offset bytes d.cursor
  simp only [hread] at hmember
  rcases (d.graph g).addComponent_cases parent record.component with
    ⟨p, hp, hle, -⟩ | ⟨graph, hadd, hadded, -⟩
  · have hlt := hparent p hp
    rw [hsize] at hle
    exact absurd hlt (Nat.not_lt.2 hle)
  · have hgraph : d'.graph g = graph := by
      rw [graph_push, hadd]
    have hindex : d'.index g.size =
        (d.index g.size).insert offset (g.size + d.members.length) record.last :=
      index_push g.size d _ cursor
    refine ⟨?_, ?_, ?_⟩
    · rw [tasksOf, List.map_cons, List.cons_append, readTasks_cons hcontains hmember hadd, hsize,
        hgraph, hindex]
      rfl
    · rw [hgraph, hadded.size_eq, hsize, length_push]
      rfl
    · rintro p ⟨⟩
      rw [length_push]
      exact Nat.lt_succ_self _

/-- Tasks ahead of others lead from one decoding to another, whatever the others are. -/
structure LeadsTo (r : Registry) (bytes : Bytes) (g : Graph) (offsets : List Nat)
    (parent : Option ComponentId) (d d' : Decoding) : Prop where
  readTasks_eq : ∀ waiting,
    readTasks r bytes (tasksOf parent offsets ++ waiting) (d.index g.size) ⟨d.graph g, d.cursor⟩ =
      readTasks r bytes waiting (d'.index g.size) ⟨d'.graph g, d'.cursor⟩
  size_eq : (d'.graph g).size = g.size + d'.members.length
  length_le : d.members.length ≤ d'.members.length

/-- After a component and all below it come the offsets beside it. -/
theorem LeadsTo.cons {record : MemberRecord} {cursor : Nat} {below : Decoding}
    (hnew : offset ∉ d.offsets)
    (hread : MemberRecord.readAt r offset bytes d.cursor = .ok record cursor)
    (hsize : (d.graph g).size = g.size + d.members.length)
    (hparent : ∀ p, parent = some p → p < g.size + d.members.length)
    (hbelow : LeadsTo r bytes g record.children (some (g.size + d.members.length))
      (d.push { offset, parent, record } cursor) below) :
    (∀ waiting, readTasks r bytes (tasksOf parent (offset :: rest) ++ waiting) (d.index g.size)
        ⟨d.graph g, d.cursor⟩ =
      readTasks r bytes (tasksOf parent rest ++ waiting) (below.index g.size)
        ⟨below.graph g, below.cursor⟩) ∧ d.members.length < below.members.length := by
  refine ⟨fun waiting => ?_, ?_⟩
  · have hstep := (readTasks_of_readAt_ok rest waiting hnew hread hsize hparent).1
    exact hstep.trans (hbelow.readTasks_eq (tasksOf parent rest ++ waiting))
  · have hlonger := hbelow.length_le
    rw [length_push] at hlonger
    exact hlonger

/-- Tasks ahead of others are done as the decoder decodes their offsets, and then it is the turn of
the others. -/
theorem readTasks_eq_decode (r : Registry) (bytes : Bytes) (g : Graph) (offsets : List Nat)
    (parent : Option ComponentId) (d : Decoding)
    (hsize : (d.graph g).size = g.size + d.members.length)
    (hparent : ∀ p, parent = some p → p < g.size + d.members.length) :
    match decode r bytes g.size offsets parent d with
    | .error (e, d') => ∀ waiting,
      readTasks r bytes (tasksOf parent offsets ++ waiting) (d.index g.size) ⟨d.graph g, d.cursor⟩ =
        .error e ⟨d'.graph g, d'.cursor⟩
    | .ok ⟨d', _⟩ => LeadsTo r bytes g offsets parent d d' := by
  fun_induction decode r bytes g.size offsets parent d with
  | case1 parent d => exact ⟨fun _ => rfl, hsize, Nat.le_refl _⟩
  | case2 parent d offset rest hseen =>
    intro waiting
    exact readTasks_of_mem rest waiting hseen _
  | case3 parent d offset rest hnew e cursor hread =>
    intro waiting
    exact readTasks_of_readAt_error rest waiting hnew hread _
  | case4 parent d offset rest hnew record cursor hread hlt failure hfailure ih =>
    intro waiting
    obtain ⟨hstep, hsize', hparent'⟩ :=
      readTasks_of_readAt_ok rest waiting hnew hread hsize hparent
    have hchildren := ih hsize' hparent'
    rw [hfailure] at hchildren
    exact hstep.trans (hchildren _)
  | case5 parent d offset rest hnew record cursor hread hlt below hle hdecode failure hfailure ih₁
      ih₂ =>
    intro waiting
    obtain ⟨-, hsize', hparent'⟩ := readTasks_of_readAt_ok rest waiting hnew hread hsize hparent
    have hbelow := ih₁ hsize' hparent'
    rw [hdecode] at hbelow
    obtain ⟨hnext, hlonger⟩ := hbelow.cons rest hnew hread hsize hparent
    have hbeside := ih₂ hbelow.size_eq fun p hp =>
      Nat.lt_of_lt_of_le (hparent p hp) (Nat.add_le_add_left (Nat.le_of_lt hlonger) g.size)
    rw [hfailure] at hbeside
    exact (hnext waiting).trans (hbeside waiting)
  | case6 parent d offset rest hnew record cursor hread hlt below hle hdecode beside hle' hdecode' ih₁
      ih₂ =>
    obtain ⟨-, hsize', hparent'⟩ := readTasks_of_readAt_ok rest [] hnew hread hsize hparent
    have hbelow := ih₁ hsize' hparent'
    rw [hdecode] at hbelow
    obtain ⟨hnext, hlonger⟩ := hbelow.cons rest hnew hread hsize hparent
    have hbeside := ih₂ hbelow.size_eq fun p hp =>
      Nat.lt_of_lt_of_le (hparent p hp) (Nat.add_le_add_left (Nat.le_of_lt hlonger) g.size)
    rw [hdecode'] at hbeside
    refine ⟨fun waiting => ?_, hbeside.size_eq, ?_⟩
    · exact (hnext waiting).trans (hbeside.readTasks_eq waiting)
    · exact Nat.le_trans (Nat.le_of_lt hlonger) hbeside.length_le

/-- The tree at the start of a region is read as it is decoded. -/
theorem readTasks_eq_ofRegion (r : Registry) (bytes : Bytes) (intake : Intake) :
    readTasks r bytes [{ offset := 0, parent := none }] {} intake =
      match ofRegion r bytes intake.graph.size intake.cursor with
      | .ok d => .ok (d.index intake.graph.size) ⟨d.graph intake.graph, d.cursor⟩
      | .error (e, d) => .error e ⟨d.graph intake.graph, d.cursor⟩ := by
  have hread := readTasks_eq_decode r bytes intake.graph [0] none { cursor := intake.cursor } rfl
    (by simp)
  unfold ofRegion
  rcases hdecode : decode r bytes intake.graph.size [0] none { cursor := intake.cursor } with
    ⟨e, d⟩ | ⟨d, hle⟩
  · rw [hdecode] at hread
    exact hread []
  · rw [hdecode] at hread
    exact (hread.readTasks_eq []).trans (by rw [readTasks])

end TreeIndex

end HardwareMap
