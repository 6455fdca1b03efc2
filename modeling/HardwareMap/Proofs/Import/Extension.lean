import HardwareMap.Proofs.Import.Safety
import HardwareMap.Proofs.Import.Tree
import HardwareMap.Proofs.Layout.Extension

/-!
# Importing a region that goes on

An import is not aware of what follows the bytes that it reads: a region that is accepted may go on in
any way, and be read with a registry that decodes more, and is still imported as the same graph, the
cursor being left in the same place (`Importer.run_append`).
-/

namespace HardwareMap

section Persists

variable {r r' : Registry} (h : r'.Extends r)

namespace Intaking

theorem persists_reading {α : Type} {reader reader' : Reader α} (hreader : Persists reader reader') :
    Persists (reading reader) (reading reader') := by
  intro region extra intake a intake' hread
  unfold reading at hread ⊢
  cases hanswer : reader region intake.cursor with
  | error e cursor =>
    rw [hanswer] at hread
    cases hread
  | ok found cursor =>
    rw [hanswer] at hread
    rw [hreader region extra _ _ _ hanswer]
    exact hread

theorem persists_repeated {step step' : Intaking Unit} (hstep : Persists step step') (count : Nat) :
    Persists (repeated step count) (repeated step' count) := by
  induction count with
  | zero => exact .pure ()
  | succ count ih => exact hstep.bind fun _ => ih

end Intaking

include h

theorem ReadMember.persists_readAt (offset : Nat) :
    Persists (readAt r offset) (readAt r' offset) := by
  refine (Reader.persists_seek offset).bind fun _ => Component.persists_readRecord.bind ?_
  rintro ⟨component, table⟩
  exact (Attributes.persists_read h).bind fun attributes => Reader.persists_position.bind fun stop =>
    table.persists_offsets.bind fun children =>
      (Reader.persists_mul children.length wordSize).bind fun size =>
        (Reader.persists_add table.offset size).bind fun tableStop => .pure _

namespace TreeIndex

theorem readTasks_append {region : Bytes} {tasks : List ReadTask} {index index' : TreeIndex}
    {intake intake' : Intake} (hread : readTasks r region tasks index intake = .ok index' intake')
    (extra : Bytes) : readTasks r' (region ++ extra) tasks index intake = .ok index' intake' := by
  fun_induction readTasks r region tasks index intake with
  | case1 index intake =>
    rw [readTasks]
    exact hread
  | case2 => cases hread
  | case3 => cases hread
  | case4 => cases hread
  | case5 index intake task rest hnew read cursor hmember id graph hadd waiting ih =>
    have hmember' := ReadMember.persists_readAt h task.offset region extra _ _ _ hmember
    exact (readTasks_cons (Bool.eq_false_iff.2 hnew) hmember' hadd).trans (ih hread)

theorem persists_readPath (offsets : SortedMap Nat ComponentId) :
    Persists (readPath r offsets) (readPath r' offsets) := by
  have hend (start offset : Nat) :
      Persists (endpoint offsets start offset) (endpoint offsets start offset) := by
    unfold endpoint
    cases offsets.get? offset with
    | none => exact Reader.persists_fail _ _ _
    | some id => exact .pure id
  exact Reader.persists_position.bind fun start => PathRecord.persists_read.bind fun p =>
    (hend start p.source).bind fun source => (hend start p.target).bind fun target =>
      (Attributes.persists_read h).bind fun attributes => .pure _

theorem persists_intakePath (offsets : SortedMap Nat ComponentId) :
    Persists (intakePath r offsets) (intakePath r' offsets) := by
  have hadding {α : Type} (add : Graph → Except Error α × Graph) :
      Persists (Intaking.adding add) (Intaking.adding add) := fun _ _ _ _ _ hadd => hadd
  have hlive : Persists Intaking.livePaths Intaking.livePaths := fun _ _ _ _ _ hcount => hcount
  exact (Intaking.persists_reading (persists_readPath h offsets)).bind fun p =>
    hlive.bind fun live => (hadding _).discard.bind fun _ =>
      (Intaking.persists_reading (Reader.persists_add live 1)).discard

theorem persists_intakePaths (offsets : SortedMap Nat ComponentId) (start : Nat) :
    Persists (intakePaths r offsets start) (intakePaths r' offsets start) := by
  have hcount : Persists (do Reader.seek start; Reader.word UInt64 : Reader UInt64)
      (do Reader.seek start; Reader.word UInt64) :=
    (Reader.persists_seek start).bind fun _ => Reader.persists_word UInt64
  exact (Intaking.persists_reading hcount).bind fun count =>
    (Intaking.persists_repeated (persists_intakePath h offsets) count.toNat).bind fun _ => .pure _

end TreeIndex

/-- A region that is accepted may go on in any way, and be read with more rules. -/
theorem Importer.run_append {region : Bytes} {cursor cursor' : Nat} {g : Graph}
    (hrun : run { registry := r } region cursor = (.ok g, cursor')) (extra : Bytes) :
    run { registry := r' } (region ++ extra) cursor = (.ok g, cursor') := by
  obtain ⟨hroom, index, intake, count, htree, hpaths⟩ := run_eq_ok.1 hrun
  refine run_eq_ok.2 ⟨?_, index, intake, count, ?_, ?_⟩
  · exact Nat.not_lt.2 (Reader.le_length_append (Nat.le_of_not_lt hroom))
  · exact TreeIndex.readTasks_append h htree extra
  · exact TreeIndex.persists_intakePaths h _ _ region extra _ _ _ hpaths

end Persists

end HardwareMap
