import HardwareMap.Import.Importer
import HardwareMap.Proofs.Layout.Safety
import HardwareMap.Proofs.Region.Confined
import HardwareMap.Proofs.Topology.Edit

/-!
# How reading can fail

Every phase of an import is put together from readers of words, texts and ranges, and each of these fails
with malformed bytes or ends the program (`Error.Unreadable`).  Into a graph that lacks what an index names
nothing can be read, either (`Error.Unimportable`).  Nothing else goes wrong, whatever the bytes hold, and
wherever the cursor and the graph of the caller are (`TreeIndex.unimportable_readTasks`,
`TreeIndex.unimportable_intakePaths`).
-/

namespace HardwareMap

/-- What can go wrong with reading anything into any graph. -/
inductive Error.Unimportable : Error → Prop
  | malformed (offset : Nat) (fault : Malformed) : Unimportable (.malformed offset fault)
  | crash (fault : Crash) : Unimportable (.crash fault)
  | missing (what : Missing) : Unimportable (.missing what)

theorem Error.Unreadable.unimportable {e : Error} (h : e.Unreadable) : e.Unimportable := by
  cases h with
  | malformed offset fault => exact .malformed offset fault
  | crash fault => exact .crash fault

/-! ## Readers -/

open Reader (confined_word confined_text confined_position confined_fail)

theorem Details.confined_readFlag : Reader.Confined readFlag := by
  refine .bind confined_position fun start => .bind (confined_word UInt8) fun value => ?_
  split
  · exact .pure _
  · exact .pure _
  · exact confined_fail _ _

theorem Details.confined_read (kind : Kind) : Reader.Confined (read kind) := by
  cases kind with
  | generic => exact .pure _
  | thread => exact .pure _
  | core => exact .pure _
  | node => exact .pure _
  | topology => exact .pure _
  | cache =>
    exact .bind (confined_word Int32) fun level => .bind confined_text fun type =>
      .bind (confined_word Int64) fun size => .bind (confined_word Int32) fun ways =>
        .bind (confined_word Int32) fun lineSize => .pure _
  | subdivision => exact .bind (confined_word Int32) fun type => .pure _
  | numa => exact .bind (confined_word Int64) fun size => .pure _
  | storage => exact .bind (confined_word Int64) fun size => .pure _
  | chip =>
    exact .bind confined_text fun vendor => .bind confined_text fun model =>
      .bind (confined_word Int32) fun type => .pure _
  | memory =>
    exact .bind (confined_word Int64) fun size => .bind confined_readFlag fun isVolatile => .pure _

theorem Component.confined_readRecord : Reader.Confined readRecord := by
  refine .bind confined_position fun start => .bind (confined_word UInt64) fun tag => ?_
  cases Kind.ofTag? tag with
  | none => exact confined_fail _ _
  | some kind =>
    exact .bind (confined_word Int32) fun id => .bind (confined_word UInt64) fun offset =>
      .bind (confined_word UInt64) fun count => .bind confined_text fun name =>
        .bind (Details.confined_read kind) fun details => .pure _

theorem ChildTable.confined_offsets (t : ChildTable) : Reader.Confined t.offsets := by
  unfold offsets
  cases t.size? with
  | none => exact confined_fail _ _
  | some size => exact .bind (Reader.confined_bytesAt _ _) fun data => .pure _

theorem Attributes.confined_read (r : Registry) : Reader.Confined (read r) := by
  refine .bind (confined_word UInt64) fun count => Reader.confined_iterate (fun a => ?_) _ _
  refine .bind confined_text fun name => .bind (confined_word UInt64) fun length =>
    .bind confined_position fun start => .bind (Reader.confined_bytes _) fun payload => ?_
  rcases r.unpack_cases name payload start with ⟨value, hvalue⟩ | hfault
  · rw [hvalue]
    exact .pure _
  · rw [hfault]
    exact confined_fail _ _

theorem PathRecord.confined_read : Reader.Confined read := by
  refine .bind (confined_word UInt64) fun source => .bind (confined_word UInt64) fun target =>
    .bind confined_position fun start => .bind (confined_word UInt32) fun tag => ?_
  cases Orientation.ofTag? tag with
  | none => exact confined_fail _ _
  | some orientation =>
    exact .bind (confined_word Int32) fun type => .bind (confined_word Binary64) fun bandwidth =>
      .bind (confined_word Binary64) fun latency => .pure _

theorem ReadMember.confined_readAt (r : Registry) (offset : Nat) :
    Reader.Confined (readAt r offset) :=
  .bind (Reader.confined_seek offset) fun _ => .bind Component.confined_readRecord fun record =>
    .bind (Attributes.confined_read r) fun _ => .bind confined_position fun _ =>
      .bind record.2.confined_offsets fun _ => .bind (Reader.confined_mul _ _) fun _ =>
        .bind (Reader.confined_add _ _) fun _ => .pure _

/-! ## Reading into a graph -/

/-- Whatever the bytes and the graph are, reading fails only as reading can. -/
abbrev Intaking.Confined {α : Type} (m : Intaking α) : Prop :=
  ∀ bytes, HardwareMap.Confined (fun _ => True) Error.Unimportable (m bytes)

namespace Intaking

variable {α β : Type}

theorem Confined.bind {m : Intaking α} {f : α → Intaking β} (hm : Confined m)
    (hf : ∀ a, Confined (f a)) : Confined (m >>= f) :=
  fun bytes => (hm bytes).bind fun a => hf a bytes

theorem Confined.discard {m : Intaking α} (hm : Confined m) : Confined (discard m) :=
  hm.bind fun _ _ => .pure ()

theorem confined_reading {reader : Reader α} (h : reader.Confined) : Confined (reading reader) := by
  intro bytes intake _
  have hrun := h bytes intake.cursor trivial
  unfold reading
  cases heq : reader bytes intake.cursor with
  | ok a cursor => trivial
  | error e cursor =>
    rw [heq] at hrun
    exact hrun.unimportable

theorem confined_adding {add : Graph → Except Error α × Graph}
    (h : ∀ g e g', add g = (.error e, g') → e.Unimportable) : Confined (adding add) := by
  intro bytes intake _
  unfold adding
  cases heq : add intake.graph with
  | mk outcome graph =>
    cases outcome with
    | ok a => trivial
    | error e => exact h _ _ _ heq

theorem confined_repeated {step : Intaking Unit} (h : Confined step) (count : Nat) :
    Confined (repeated step count) := by
  induction count with
  | zero => exact fun _ => .pure ()
  | succ count ih => exact h.bind fun _ => ih

end Intaking

namespace TreeIndex

theorem confined_readPath (r : Registry) (offsets : SortedMap Nat ComponentId) :
    Reader.Confined (readPath r offsets) := by
  have hend (start offset : Nat) : Reader.Confined (endpoint offsets start offset) := by
    unfold endpoint
    cases offsets.get? offset with
    | none => exact confined_fail _ _
    | some id => exact .pure id
  exact .bind confined_position fun start => .bind PathRecord.confined_read fun p =>
    .bind (hend start _) fun source => .bind (hend start _) fun target =>
      .bind (Attributes.confined_read r) fun attributes => .pure _

/-- A graph refuses a path only for want of one of its ends. -/
theorem confined_intakePath (r : Registry) (offsets : SortedMap Nat ComponentId) :
    Intaking.Confined (intakePath r offsets) := by
  refine .bind (Intaking.confined_reading (confined_readPath r offsets)) fun p => ?_
  have hlive : Intaking.Confined Intaking.livePaths := fun _ _ _ => trivial
  refine .bind hlive fun live => ?_
  refine .bind (.discard (Intaking.confined_adding fun g e g' hadd => ?_)) fun _ =>
    (Intaking.confined_reading (Reader.confined_add live 1)).discard
  rcases g.addPath_cases p.source p.target p.orientation p.type p.toAnnotations with
    ⟨c, -, -, hrefused⟩ | ⟨graph, hadded, -⟩
  · rw [hrefused] at hadd
    cases hadd
    exact .missing _
  · rw [hadded] at hadd
    cases hadd

/-- Paths are read, or the bytes or the graph are at fault. -/
theorem unimportable_intakePaths (r : Registry) (offsets : SortedMap Nat ComponentId) (start : Nat) :
    Intaking.Confined (intakePaths r offsets start) := by
  have hcount : Reader.Confined (do Reader.seek start; Reader.word UInt64) :=
    .bind (Reader.confined_seek start) fun _ => confined_word UInt64
  exact .bind (Intaking.confined_reading hcount) fun count =>
    .bind (Intaking.confined_repeated (confined_intakePath r offsets) _) fun _ _ => .pure _

/-- A tree is read, or the bytes or the graph are at fault. -/
theorem unimportable_readTasks (r : Registry) (bytes : Bytes) (tasks : List ReadTask)
    (index : TreeIndex) :
    HardwareMap.Confined (fun _ => True) Error.Unimportable (readTasks r bytes tasks index) := by
  intro intake _
  fun_induction readTasks r bytes tasks index intake with
  | case1 index intake => trivial
  | case2 index intake task rest hnew => exact .malformed _ _
  | case3 index intake task rest hnew e cursor hread =>
    have hmember := ReadMember.confined_readAt r task.offset bytes intake.cursor trivial
    rw [hread] at hmember
    exact hmember.unimportable
  | case4 index intake task rest hnew read cursor hread e graph hadd =>
    rcases intake.graph.addComponent_cases task.parent read.component with
      ⟨p, -, -, hrefused⟩ | ⟨graph', hadded, -⟩
    · rw [hrefused] at hadd
      cases hadd
      exact .missing _
    · rw [hadded] at hadd
      cases hadd
  | case5 index intake task rest hnew read cursor hread id graph hadd waiting ih => exact ih

end TreeIndex

end HardwareMap
