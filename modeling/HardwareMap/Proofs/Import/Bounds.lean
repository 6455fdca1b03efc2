import HardwareMap.Proofs.Import.Decoder
import HardwareMap.Proofs.Import.Grafting

/-!
# The work of an import is bounded by the size of its region

The counts in a region are words that anyone may have written, and the offsets in a child table may
lead anywhere, backwards too.  How often the loops of an import go round does not depend on what the
counts say:

* a component is decoded at an offset once at most, and its smallest form has to fit there
  (`TreeIndex.turns`), so the waiting tasks run out or one of them fails before there are more turns
  than offsets;
* a loop over the records of attributes or of paths ends when its count is reached or with the first
  record that cannot be read (`Loop.Ends`), and every record that can be read moves the cursor on,
  which stays inside of the region.
-/

namespace HardwareMap

/-! ## Loops -/

namespace Loop

variable {σ α : Type} {step : α → EStateM Error σ α} {a b c : α} {s t u : σ} {n count : Nat}
  {result : EStateM.Result Error σ α}

/-- The steps of a loop that succeed, one after the other. -/
inductive Steps (step : α → EStateM Error σ α) (a : α) (s : σ) : Nat → α → σ → Prop
  | start : Steps step a s 0 a s
  | next {n : Nat} {b c : α} {t u : σ} (h : Steps step a s n b t) (hstep : step b t = .ok c u) :
      Steps step a s (n + 1) c u

/-- The end of a loop of so many steps, after those that succeed: all of them did, or the one behind
them fails. -/
inductive Ends (step : α → EStateM Error σ α) (count : Nat) (a : α) (s : σ) :
    Nat → EStateM.Result Error σ α → Prop
  | finished {b : α} {t : σ} (h : Steps step a s count b t) : Ends step count a s count (.ok b t)
  | failure {n : Nat} {b : α} {e : Error} {t u : σ} (h : Steps step a s n b t) (hlt : n < count)
      (hstep : step b t = .error e u) : Ends step count a s n (.error e u)

theorem Steps.cons (hstep : step a s = .ok b t) (h : Steps step b t n c u) :
    Steps step a s (n + 1) c u := by
  induction h with
  | start => exact .next .start hstep
  | next _ hlast ih => exact .next ih hlast

theorem Ends.cons (hstep : step a s = .ok b t) (h : Ends step count b t n result) :
    Ends step (count + 1) a s (n + 1) result := by
  cases h with
  | finished h => exact .finished (h.cons hstep)
  | failure h hlt hfail => exact .failure (h.cons hstep) (Nat.succ_lt_succ hlt) hfail

theorem Ends.exists_steps (h : Ends step count a s n result) : ∃ b t, Steps step a s n b t := by
  cases h with
  | finished h => exact ⟨_, _, h⟩
  | failure h _ _ => exact ⟨_, _, h⟩

/-- What goes on with the answer of a step and stops at a failure is a loop. -/
theorem exists_ends (step : α → EStateM Error σ α) (run : Nat → α → EStateM Error σ α)
    (hzero : ∀ a s, run 0 a s = .ok a s)
    (hsucc : ∀ count a s, run (count + 1) a s =
      match step a s with
      | .ok b t => run count b t
      | .error e t => .error e t) (count : Nat) (a : α) (s : σ) :
    ∃ n, Ends step count a s n (run count a s) := by
  induction count generalizing a s with
  | zero =>
    rw [hzero]
    exact ⟨0, .finished .start⟩
  | succ count ih =>
    rw [hsucc]
    cases hstep : step a s with
    | ok b t =>
      obtain ⟨n, hends⟩ := ih b t
      exact ⟨n + 1, hends.cons hstep⟩
    | error e t => exact ⟨0, .failure .start (Nat.succ_pos count) hstep⟩

end Loop

theorem Reader.exists_ends_iterate {α : Type} (step : α → Reader α) (bytes : Bytes) (count : Nat)
    (a : α) (s : Nat) :
    ∃ n, Loop.Ends (fun a => step a bytes) count a s n (iterate step count a bytes s) := by
  refine Loop.exists_ends (fun a => step a bytes) (fun count a => iterate step count a bytes)
    (fun _ _ => rfl) (fun count a s => ?_) count a s
  refine (bind_apply (step a) (iterate step count) bytes s).trans ?_
  cases step a bytes s <;> rfl

theorem Intaking.exists_ends_repeated (step : Intaking Unit) (bytes : Bytes) (count : Nat)
    (intake : Intake) :
    ∃ n, Loop.Ends (fun _ => step bytes) count () intake n (repeated step count bytes intake) := by
  refine Loop.exists_ends (fun _ => step bytes) (fun count _ => repeated step count bytes)
    (fun _ _ => rfl) (fun count _ s => ?_) count () intake
  change EStateM.bind (step bytes) (fun _ => repeated step count bytes) s = _
  unfold EStateM.bind
  cases step bytes s <;> rfl

/-! ## Attributes -/

namespace Attributes

variable {r : Registry} {bytes : Bytes}

/-- Every attribute that was read took up nine bytes at least. -/
theorem le_of_steps (hlen : bytes.length < UInt64.size) {a b : Attributes} {start stop n : Nat}
    (h : Loop.Steps (fun a => readRecord r a bytes) a start n b stop)
    (hstart : start ≤ bytes.length) : start + 9 * n ≤ stop ∧ stop ≤ bytes.length := by
  induction h with
  | start => exact ⟨Nat.le_refl _, hstart⟩
  | @next n b c middle stop _ hstep ih =>
    obtain ⟨hle, hinside⟩ := ih
    have hrecord := advances_readRecord r b bytes middle hlen hinside
    rw [hstep] at hrecord
    obtain ⟨hnine, hstop⟩ : middle + 9 ≤ stop ∧ stop ≤ bytes.length := hrecord
    exact ⟨by omega, hstop⟩

/-- The loop over the records of a section ends after as many records as the region has room for,
or before that. -/
theorem exists_ends_read (r : Registry) (hlen : bytes.length < UInt64.size) {cursor start : Nat}
    {count : UInt64} (hcount : Reader.word UInt64 bytes cursor = .ok count start) :
    ∃ n ≤ bytes.length / 9, Loop.Ends (fun a => readRecord r a bytes) count.toNat ∅ start n
      (read r bytes cursor) := by
  obtain ⟨-, hle, -, rfl⟩ := Reader.word_eq_ok.1 hcount
  have hread : read r bytes cursor =
      Reader.iterate (readRecord r) count.toNat ∅ bytes (cursor + Word.width UInt64) := by
    rw [read, Reader.bind_apply, hcount]
  obtain ⟨n, hends⟩ :=
    Reader.exists_ends_iterate (readRecord r) bytes count.toNat ∅ (cursor + Word.width UInt64)
  rw [← hread] at hends
  refine ⟨n, ?_, hends⟩
  obtain ⟨_, _, hsteps⟩ := hends.exists_steps
  have hroom := le_of_steps hlen hsteps hle
  omega

/-- A section that can be read is as long as its records. -/
theorem le_of_read (hlen : bytes.length < UInt64.size) {cursor stop : Nat} {a : Attributes}
    (h : read r bytes cursor = .ok a stop) :
    cursor + 8 + 9 * Bytes.ofLittleEndian (bytes.slice cursor wordSize) ≤ stop ∧
      stop ≤ bytes.length := by
  obtain ⟨count, start, hcount, -⟩ := Reader.bind_eq_ok.1 h
  obtain ⟨n, -, hends⟩ := exists_ends_read r hlen hcount
  rw [h] at hends
  obtain ⟨-, hle, rfl, rfl⟩ := Reader.word_eq_ok.1 hcount
  have hstored : (Word.ofBytes (bytes.slice cursor wordSize) : UInt64).toNat =
      Bytes.ofLittleEndian (bytes.slice cursor wordSize) :=
    Word.code_ofBytes (Bytes.length_slice hle)
  cases hends with
  | finished hsteps =>
    rw [← hstored]
    exact le_of_steps hlen hsteps hle

end Attributes

/-! ## The tree -/

/-- Decodes the component at an offset: its record and the attributes behind it. -/
def Component.decodeAt (r : Registry) (offset : Nat) : Reader (Component × ChildTable) := do
  Reader.seek offset
  let (component, table) ← Component.readRecord
  let attributes ← Attributes.read r
  return ({ component with attributes }, table)

/-- The smallest component fits behind the offset of one that can be decoded. -/
theorem Component.orderly_decodeAt (r : Registry) (offset : Nat) {bytes : Bytes}
    (hlen : bytes.length < UInt64.size) (cursor : Nat) :
    Orderly (fun _ _ => offset + minSize ≤ bytes.length) (decodeAt r offset bytes cursor) := by
  refine (Reader.orderly_seek offset).bind ?_
  rintro _ start ⟨hstart, rfl⟩
  refine (Component.advances_readRecord bytes start hlen hstart).bind ?_
  rintro ⟨component, table⟩ middle ⟨hrecord, hmiddle⟩
  refine (Attributes.advances_read r bytes middle hlen hmiddle).bind ?_
  rintro attributes stop ⟨hattributes, hstop⟩
  have hsize : start + minSize ≤ stop :=
    Nat.le_trans (Nat.add_le_add_right hrecord wordSize) hattributes
  exact Nat.le_trans hsize hstop

/-- A component is read with its children if it can be decoded and then its child table read. -/
theorem ReadMember.readAt_eq_decodeAt (r : Registry) (offset : Nat) (bytes : Bytes) (s : Nat) :
    readAt r offset bytes s =
      match Component.decodeAt r offset bytes s with
      | .error e s => .error e s
      | .ok (component, table) stop =>
        match table.offsets bytes stop with
        | .error e s => .error e s
        | .ok children s => .ok (MemberRecord.member { component, table, children, stop }) s := by
  have hrecord : MemberRecord.readAt r offset = (do
      let (component, table) ← Component.decodeAt r offset
      let stop ← Reader.position
      let children ← table.offsets
      return { component, table, children, stop }) := by
    simp only [MemberRecord.readAt, Component.decodeAt, bind_assoc, pure_bind]
  rw [readAt_eq_record, hrecord, Reader.bind_apply]
  rcases Component.decodeAt r offset bytes s with ⟨⟨component, table⟩, stop⟩ | ⟨e, s⟩
  · have hposition : Reader.position bytes stop = .ok stop stop := rfl
    simp only [Reader.bind_apply, hposition]
    cases table.offsets bytes stop <;> rfl
  · rfl

namespace TreeIndex

/-- The first turns of the loop that reads a tree: the offsets at which a component was decoded, and
what the loop comes to if it is over by then. -/
def turns (r : Registry) (bytes : Bytes) : Nat → List ReadTask → TreeIndex → Intake →
    List Nat × Option (EStateM.Result Error Intake TreeIndex)
  | 0, _, _, _ => ([], none)
  | _ + 1, [], index, intake => ([], some (.ok index intake))
  | n + 1, task :: rest, index, intake =>
    if index.offsets.contains task.offset then
      ([], some (.error (.malformed task.offset .referencedTwice) intake))
    else
      match Component.decodeAt r task.offset bytes intake.cursor with
      | .error e cursor => ([], some (.error e { intake with cursor }))
      | .ok (component, table) stop =>
        match table.offsets bytes stop with
        | .error e cursor => ([task.offset], some (.error e { intake with cursor }))
        | .ok children cursor =>
          match intake.graph.addComponent task.parent component with
          | (.error e, graph) => ([task.offset], some (.error e { graph, cursor }))
          | (.ok id, graph) =>
            let record : MemberRecord := { component, table, children, stop }
            let next := turns r bytes n (tasksOf (some id) children ++ rest)
              (index.insert task.offset id record.last) { graph, cursor }
            (task.offset :: next.1, next.2)

variable {r : Registry} {bytes : Bytes}

/-- Where a component can be decoded that the index does not know, nothing was decoded before. -/
theorem fresh_of_decodeAt (hlen : bytes.length < UInt64.size) {index : TreeIndex} {offset s s' : Nat}
    {decoded : Component × ChildTable} (hnew : ¬ index.offsets.contains offset = true)
    (h : Component.decodeAt r offset bytes s = .ok decoded s') :
    index.offsets.contains offset = false ∧ offset + Component.minSize ≤ bytes.length := by
  have hroom := Component.orderly_decodeAt r offset hlen s
  rw [h] at hroom
  exact ⟨Bool.eq_false_iff.2 hnew, hroom⟩

/-- No component is decoded at an offset that is known, and none twice. -/
theorem nodup_turns (hlen : bytes.length < UInt64.size) (n : Nat) (tasks : List ReadTask)
    (index : TreeIndex) (intake : Intake) :
    (turns r bytes n tasks index intake).1.Nodup ∧
      ∀ offset ∈ (turns r bytes n tasks index intake).1,
        index.offsets.contains offset = false ∧ offset + Component.minSize ≤ bytes.length := by
  fun_induction turns r bytes n tasks index intake with
  | case1 => exact ⟨.nil, by simp⟩
  | case2 => exact ⟨.nil, by simp⟩
  | case3 => exact ⟨.nil, by simp⟩
  | case4 => exact ⟨.nil, by simp⟩
  | case5 n task rest index intake hnew component table stop hdecode e cursor htable =>
    exact ⟨List.nodup_singleton _, by simpa using fresh_of_decodeAt hlen hnew hdecode⟩
  | case6 n task rest index intake hnew component table stop hdecode children cursor htable e graph
      hadd =>
    exact ⟨List.nodup_singleton _, by simpa using fresh_of_decodeAt hlen hnew hdecode⟩
  | case7 n task rest index intake hnew component table stop hdecode children cursor htable id graph
      hadd record next ih =>
    obtain ⟨hnodup, hfresh⟩ := ih
    -- Behind this turn the index knows the offset, so no later turn decodes it.
    refine ⟨List.nodup_cons.2 ⟨fun hmem => ?_, hnodup⟩, ?_⟩
    · have hagain := (hfresh task.offset hmem).1
      simp [insert, SortedMap.contains_insert] at hagain
    · intro offset hoffset
      rcases List.mem_cons.1 hoffset with rfl | hlater
      · exact fresh_of_decodeAt hlen hnew hdecode
      · obtain ⟨hnot, hroom⟩ := hfresh offset hlater
        rw [insert, SortedMap.contains_insert, Bool.or_eq_false_iff] at hnot
        exact ⟨hnot.2, hroom⟩

/-- What reading the first task leads to, if the index does not know its offset. -/
theorem readTasks_of_new {task : ReadTask} {rest : List ReadTask} {index : TreeIndex}
    {intake : Intake} (hnew : ¬ index.offsets.contains task.offset = true) :
    readTasks r bytes (task :: rest) index intake =
      match ReadMember.readAt r task.offset bytes intake.cursor with
      | .error e cursor => .error e { intake with cursor }
      | .ok read cursor =>
        match intake.graph.addComponent task.parent read.component with
        | (.error e, graph) => .error e { graph, cursor }
        | (.ok id, graph) =>
          readTasks r bytes (tasksOf (some id) read.children ++ rest)
            (index.insert task.offset id read.stop) { graph, cursor } := by
  rw [readTasks, dif_neg hnew]
  split
  next h => simp only [h]
  next read cursor h =>
    rcases hadd : intake.graph.addComponent task.parent read.component with ⟨_ | _, graph⟩ <;>
      simp only [h, hadd, tasksOf]

/-- Every turn after which the loop is not over has decoded a component. -/
theorem length_of_turns_eq_none {n : Nat} {tasks : List ReadTask} {index : TreeIndex}
    {intake : Intake} (h : (turns r bytes n tasks index intake).2 = none) :
    (turns r bytes n tasks index intake).1.length = n := by
  fun_induction turns r bytes n tasks index intake with
  | case1 => rfl
  | case2 => cases h
  | case3 => cases h
  | case4 => cases h
  | case5 => cases h
  | case6 => cases h
  | case7 n task rest index intake hnew component table stop hdecode children cursor htable id graph
      hadd record next ih => exact congrArg Nat.succ (ih h)

/-- A loop that is over has read the tree. -/
theorem eq_readTasks_of_turns {n : Nat} {tasks : List ReadTask} {index : TreeIndex}
    {intake : Intake} {result : EStateM.Result Error Intake TreeIndex}
    (h : (turns r bytes n tasks index intake).2 = some result) :
    result = readTasks r bytes tasks index intake := by
  fun_induction turns r bytes n tasks index intake with
  | case1 => cases h
  | case2 =>
    cases h
    rw [readTasks]
  | case3 n task rest index intake hseen =>
    cases h
    rw [readTasks, dif_pos hseen]
  | case4 n task rest index intake hnew e cursor hdecode =>
    cases h
    simp only [readTasks_of_new hnew, ReadMember.readAt_eq_decodeAt, hdecode]
  | case5 n task rest index intake hnew component table stop hdecode e cursor htable =>
    cases h
    simp only [readTasks_of_new hnew, ReadMember.readAt_eq_decodeAt, hdecode, htable]
  | case6 n task rest index intake hnew component table stop hdecode children cursor htable e graph
      hadd =>
    cases h
    simp only [readTasks_of_new hnew, ReadMember.readAt_eq_decodeAt, hdecode, htable,
      MemberRecord.member, hadd]
  | case7 n task rest index intake hnew component table stop hdecode children cursor htable id graph
      hadd record next ih =>
    simp only [readTasks_of_new hnew, ReadMember.readAt_eq_decodeAt, hdecode, htable,
      MemberRecord.member, hadd]
    exact ih h

/-- Wherever a loop ends, every component in the graph that was not there before was decoded; and if
the tree was read, the index knows the offsets at which components were. -/
theorem leaves_turns {n : Nat} {tasks : List ReadTask} {index : TreeIndex} {intake : Intake}
    {result : EStateM.Result Error Intake TreeIndex}
    (h : (turns r bytes n tasks index intake).2 = some result) :
    Leaves
      (fun graph => graph.size ≤ intake.graph.size + (turns r bytes n tasks index intake).1.length)
      (fun index' _ => ∀ offset, index'.offsets.contains offset = true ↔
        index.offsets.contains offset = true ∨ offset ∈ (turns r bytes n tasks index intake).1)
      result := by
  fun_induction turns r bytes n tasks index intake with
  | case1 => cases h
  | case2 =>
    cases h
    exact ⟨Nat.le_refl _, by simp⟩
  | case3 =>
    cases h
    exact Nat.le_refl _
  | case4 =>
    cases h
    exact Nat.le_refl _
  | case5 =>
    cases h
    exact Nat.le_succ _
  | case6 n task rest index intake hnew component table stop hdecode children cursor htable e graph
      hadd =>
    cases h
    rcases intake.graph.addComponent_cases task.parent component with
      ⟨p, -, -, herror⟩ | ⟨graph', hok, -, -⟩
    · rw [herror] at hadd
      cases hadd
      exact Nat.le_succ _
    · rw [hok] at hadd
      cases hadd
  | case7 n task rest index intake hnew component table stop hdecode children cursor htable id graph
      hadd record next ih =>
    obtain ⟨-, hadded⟩ := eq_size_of_addComponent hadd
    have hsize := hadded.size_eq
    refine (ih h).mono (fun graph' hle => ?_) fun index' _ hknown offset => ?_
    · simp only [List.length_cons, next] at hle ⊢
      omega
    · have hinsert : (index.insert task.offset id record.last).offsets.contains offset = true ↔
          offset = task.offset ∨ index.offsets.contains offset = true := by
        rw [insert, SortedMap.contains_insert, Bool.or_eq_true, decide_eq_true_eq, eq_comm]
      rw [hknown offset, hinsert, List.mem_cons]
      exact or_assoc.trans or_left_comm

/-- The offsets at which components are decoded are all different, and each of them leaves room for
the smallest component. -/
theorem turns_bounded (r : Registry) (hlen : bytes.length < UInt64.size) (tasks : List ReadTask)
    (index : TreeIndex) (intake : Intake) (n : Nat) :
    let run := turns r bytes n tasks index intake
    run.1.Nodup ∧ (∀ offset ∈ run.1, offset + 37 ≤ bytes.length) ∧
      run.1.length ≤ bytes.length - 36 ∧
      (bytes.length - 36 < n → run.2 = some (readTasks r bytes tasks index intake)) := by
  intro run
  obtain ⟨hnodup, hfresh⟩ := nodup_turns (r := r) hlen n tasks index intake
  have hroom : ∀ offset ∈ run.1, offset + 37 ≤ bytes.length :=
    fun offset hoffset => (hfresh offset hoffset).2
  -- The offsets are different numbers below the first one without room.
  have hcount : run.1.length ≤ bytes.length - 36 := by
    have hsubset : run.1 ⊆ List.range (bytes.length - 36) := by
      intro offset hoffset
      have := hroom offset hoffset
      exact List.mem_range.2 (by omega)
    have hle := (hnodup.subperm hsubset).length_le
    rwa [List.length_range] at hle
  refine ⟨hnodup, hroom, hcount, fun hn => ?_⟩
  cases hresult : run.2 with
  | none =>
    have hturns : run.1.length = n := length_of_turns_eq_none hresult
    omega
  | some result => rw [eq_readTasks_of_turns hresult]

end TreeIndex

/-! ## Paths -/

/-- What a number of paths that were read leave behind them. -/
structure Intake.Appended (bytes : Bytes) (intake : Intake) (n : Nat) (t : Intake) : Prop where
  size_eq : t.graph.paths.size = intake.graph.paths.size + n
  le_cursor : intake.cursor + 48 * n ≤ t.cursor
  cursor_le : t.cursor ≤ bytes.length

/-- A graph with a number of paths more, for all of which the region has room behind a cursor. -/
def Intake.RoomFor (bytes : Bytes) (intake : Intake) (graph : Graph) : Prop :=
  ∃ n, graph.paths.size = intake.graph.paths.size + n ∧ intake.cursor + 48 * n ≤ bytes.length

theorem Intake.Appended.roomFor {bytes : Bytes} {intake t : Intake} {n : Nat} {graph : Graph}
    (h : intake.Appended bytes n t) (hroom : t.RoomFor bytes graph) : intake.RoomFor bytes graph := by
  obtain ⟨k, hsize, hle⟩ := hroom
  have hcursor := h.le_cursor
  exact ⟨n + k, by rw [hsize, h.size_eq, Nat.add_assoc], by omega⟩

namespace TreeIndex

variable {r : Registry} {bytes : Bytes} {offsets : SortedMap Nat ComponentId} {intake : Intake}

/-- A path that is appended takes up 48 bytes at least, and none is appended without being read. -/
theorem leaves_intakePath_appended (r : Registry) (offsets : SortedMap Nat ComponentId)
    (hlen : bytes.length < UInt64.size) (hcursor : intake.cursor ≤ bytes.length) :
    Leaves (intake.RoomFor bytes) (fun _ t => intake.Appended bytes 1 t)
      (intakePath r offsets bytes intake) := by
  have hself : intake.RoomFor bytes intake.graph := ⟨0, rfl, hcursor⟩
  refine (Leaves.reading hself).bind ?_
  rintro p ⟨graph, cursor⟩ - ⟨hgraph, hread⟩
  obtain rfl : graph = intake.graph := hgraph
  have hpath : Orderly _ (readPath r offsets bytes intake.cursor) := orderly_readPath r hlen hcursor
  rw [hread] at hpath
  obtain ⟨hsize, hinside⟩ : intake.cursor + 48 ≤ cursor ∧ cursor ≤ bytes.length := hpath.2.2
  have hlive : Leaves (intake.RoomFor bytes) (fun _ t => t = ⟨intake.graph, cursor⟩)
      (Intaking.livePaths bytes ⟨intake.graph, cursor⟩) := ⟨hself, rfl⟩
  refine hlive.bind ?_
  rintro live _ - rfl
  have hadding : Leaves (intake.RoomFor bytes) (fun _ t => intake.Appended bytes 1 t)
      (Intaking.adding (fun g => g.addPath p.source p.target p.orientation p.type p.toAnnotations)
        bytes ⟨intake.graph, cursor⟩) := by
    simp only [Intaking.adding]
    rcases intake.graph.addPath_cases p.source p.target p.orientation p.type p.toAnnotations with
      ⟨c, -, -, hadd⟩ | ⟨graph', hadd, -, -, hjoin⟩
    · rw [hadd]
      exact hself
    · rw [hadd]
      have hone : graph'.paths.size = intake.graph.paths.size + 1 := by
        rw [hjoin.paths_eq, Array.size_push]
      exact ⟨⟨1, hone, by omega⟩, hone, hsize, hinside⟩
  refine (hadding.discard fun _ _ h => h).bind fun _ t hroom happended => ?_
  refine (Leaves.reading hroom).discard ?_
  rintro _ ⟨graph', cursor'⟩ ⟨hgraph, hcount⟩
  obtain rfl : graph' = t.graph := hgraph
  obtain rfl : cursor' = t.cursor := (Reader.add_eq_ok.1 hcount).2.2
  exact happended

/-- Every path that was read is appended, and took up 48 bytes at least. -/
theorem appended_of_steps (hlen : bytes.length < UInt64.size)
    (hcursor : intake.cursor ≤ bytes.length) {n : Nat} {t : Intake}
    (h : Loop.Steps (fun _ => intakePath r offsets bytes) () intake n () t) :
    intake.Appended bytes n t := by
  generalize () = b at h
  induction h with
  | start => exact ⟨rfl, Nat.le_refl _, hcursor⟩
  | @next n b c middle t _ hstep ih =>
    obtain ⟨hsize, hle, hinside⟩ := ih
    have hone := leaves_intakePath_appended r offsets hlen hinside
    rw [hstep] at hone
    obtain ⟨-, hsize', hle', hinside'⟩ := hone
    exact ⟨by omega, by omega, hinside'⟩

/-- Wherever the reading of some paths ends, there was room for all that were appended. -/
theorem leaves_repeated_appended (r : Registry) (offsets : SortedMap Nat ComponentId)
    (hlen : bytes.length < UInt64.size) (hcursor : intake.cursor ≤ bytes.length) (count : Nat) :
    Leaves (intake.RoomFor bytes) (fun _ t => intake.Appended bytes count t)
      (Intaking.repeated (intakePath r offsets) count bytes intake) := by
  obtain ⟨n, hends⟩ := Intaking.exists_ends_repeated (intakePath r offsets) bytes count intake
  generalize Intaking.repeated (intakePath r offsets) count bytes intake = result at hends
  cases hends with
  | finished h =>
    have happended := appended_of_steps hlen hcursor h
    exact ⟨happended.roomFor ⟨0, rfl, happended.cursor_le⟩, happended⟩
  | failure h _ hstep =>
    have happended := appended_of_steps hlen hcursor h
    -- The step that fails may have appended its path before it does.
    have hlast := leaves_intakePath_appended r offsets hlen happended.cursor_le
    rw [hstep] at hlast
    exact happended.roomFor hlast

/-- The count of the paths stands where their section starts. -/
theorem count_eq_ok {start cursor cursor' : Nat} {count : UInt64}
    (h : (do Reader.seek start; Reader.word UInt64 : Reader UInt64) bytes cursor =
      .ok count cursor') : start + 8 ≤ bytes.length ∧ cursor' = start + 8 := by
  obtain ⟨_, _, hseek, hword⟩ := Reader.bind_eq_ok.1 h
  obtain ⟨-, -, rfl⟩ := Reader.seek_eq_ok.1 hseek
  obtain ⟨-, hle, -, rfl⟩ := Reader.word_eq_ok.1 hword
  exact ⟨hle, rfl⟩

/-- The loop over the paths ends after as many of them as the region has room for, or before that. -/
theorem exists_ends_intakePaths (r : Registry) (offsets : SortedMap Nat ComponentId)
    (hlen : bytes.length < UInt64.size) {start cursor : Nat} {count : UInt64}
    (hcount : (do Reader.seek start; Reader.word UInt64 : Reader UInt64) bytes intake.cursor =
      .ok count cursor) :
    ∃ n ≤ (bytes.length - 8) / 48, Loop.Ends (fun _ => intakePath r offsets bytes) count.toNat ()
      ⟨intake.graph, cursor⟩ n
      (Intaking.repeated (intakePath r offsets) count.toNat bytes ⟨intake.graph, cursor⟩) := by
  obtain ⟨hle, rfl⟩ := count_eq_ok hcount
  obtain ⟨n, hends⟩ := Intaking.exists_ends_repeated (intakePath r offsets) bytes count.toNat
    ⟨intake.graph, start + 8⟩
  refine ⟨n, ?_, hends⟩
  obtain ⟨_, t, hsteps⟩ := hends.exists_steps
  obtain ⟨-, hcursor, hinside⟩ := appended_of_steps hlen hle hsteps
  simp only at hcursor
  omega

/-- Whatever a section of paths holds, no more paths are appended than the region has room for. -/
theorem leaves_intakePaths_appended (r : Registry) (offsets : SortedMap Nat ComponentId)
    (hlen : bytes.length < UInt64.size) (start : Nat) (intake : Intake) :
    Leaves (fun graph => ∃ n ≤ (bytes.length - 8) / 48,
        graph.paths.size = intake.graph.paths.size + n)
      (fun count t => Intake.Appended bytes ⟨intake.graph, start + 8⟩ count t)
      (intakePaths r offsets start bytes intake) := by
  refine (Leaves.reading ⟨0, Nat.zero_le _, rfl⟩).bind ?_
  rintro count ⟨graph, cursor⟩ - ⟨hgraph, hcount⟩
  obtain rfl : graph = intake.graph := hgraph
  obtain ⟨hle, hcursor⟩ := count_eq_ok hcount
  obtain rfl : cursor = start + 8 := hcursor
  have hrepeated : Leaves _ _ (Intaking.repeated (intakePath r offsets) count.toNat bytes
      ⟨intake.graph, start + 8⟩) := leaves_repeated_appended r offsets hlen hle count.toNat
  have hfit : ∀ graph, Intake.RoomFor bytes ⟨intake.graph, start + 8⟩ graph →
      ∃ n ≤ (bytes.length - 8) / 48, graph.paths.size = intake.graph.paths.size + n := by
    rintro graph ⟨n, hsize, hroom⟩
    simp only at hroom
    exact ⟨n, by omega, hsize⟩
  refine (hrepeated.mono hfit fun _ _ h => h).bind fun _ t hvalid happended => ?_
  exact ⟨hvalid, happended⟩

end TreeIndex

/-! ## The phases of an import -/

/-- **Bounded work**: whatever a region holds, the loops of an import end, and its size bounds how
often they go round.  Reading the tree decodes no component twice and none for which there is no room,
and is over after one turn more than there are offsets with room; what it adds to the graph was decoded,
and the index of a tree knows just the offsets at which something was.  A section of attributes ends
after as many records as there is room for at most, or with the first one that cannot be read; and
reading the paths, be it that it succeeds or fails, appends no more of them than there is room for.
What is read with success moves the cursor on by the smallest size of as many records as its count
says. -/
theorem Importer.work_bounded (x : Importer) {bytes : Bytes} (hlen : bytes.length < UInt64.size) :
    (∀ (intake : Intake) (n : Nat),
      let run := TreeIndex.turns x.registry bytes n [{ offset := 0, parent := none }] {} intake
      run.1.Nodup ∧ (∀ offset ∈ run.1, offset + 37 ≤ bytes.length) ∧
        run.1.length ≤ bytes.length - 36 ∧
        (bytes.length - 36 < n →
          (∃ tree, run.2 = some tree ∧ x.readTree bytes intake =
            x.intaking .readingHeader .readingTree (fun _ _ => tree) bytes intake) ∧
          (x.readTree bytes intake).2.2.graph.size ≤ intake.graph.size + run.1.length ∧
          ∀ index, (x.readTree bytes intake).1 = .ok index →
            ∀ offset, index.offsets.contains offset = true ↔ offset ∈ run.1)) ∧
    (∀ cursor,
      (∀ count start, Reader.word UInt64 bytes cursor = .ok count start →
        ∃ n ≤ bytes.length / 9, Loop.Ends (fun a => Attributes.readRecord x.registry a bytes)
          count.toNat ∅ start n (Attributes.read x.registry bytes cursor)) ∧
      ∀ a stop, Attributes.read x.registry bytes cursor = .ok a stop →
        cursor + 8 + 9 * Bytes.ofLittleEndian (bytes.slice cursor wordSize) ≤ stop ∧
          stop ≤ bytes.length) ∧
    ∀ (offsets : SortedMap Nat ComponentId) (start : Nat) (intake : Intake),
      (∀ count cursor,
        (do Reader.seek start; Reader.word UInt64 : Reader UInt64) bytes intake.cursor =
          .ok count cursor →
        ∃ n ≤ (bytes.length - 8) / 48,
          Loop.Ends (fun _ => TreeIndex.intakePath x.registry offsets bytes) count.toNat ()
            ⟨intake.graph, cursor⟩ n
            (Intaking.repeated (TreeIndex.intakePath x.registry offsets) count.toNat bytes
              ⟨intake.graph, cursor⟩)) ∧
      let (answer, _, after) := x.readPaths offsets start bytes intake
      (∃ n ≤ (bytes.length - 8) / 48, after.graph.paths.size = intake.graph.paths.size + n) ∧
        ∀ count, answer = .ok count →
          after.graph.paths.size = intake.graph.paths.size + count ∧
            start + 8 + 48 * count ≤ after.cursor ∧ after.cursor ≤ bytes.length := by
  refine ⟨fun intake n => ?_, fun cursor => ⟨?_, ?_⟩, fun offsets start intake => ⟨?_, ?_⟩⟩
  · obtain ⟨hnodup, hroom, hcount, hover⟩ := TreeIndex.turns_bounded x.registry hlen
      [{ offset := 0, parent := none }] {} intake n
    refine ⟨hnodup, hroom, hcount, fun hn => ⟨⟨_, hover hn, rfl⟩, ?_⟩⟩
    obtain ⟨hgrown, hknown⟩ := x.leaves_intaking .readingHeader .readingTree
      (m := fun bytes => TreeIndex.readTasks x.registry bytes [{ offset := 0, parent := none }] {})
      (Nat.le_add_right _ _) (TreeIndex.leaves_turns (hover hn))
    refine ⟨hgrown, fun index hindex offset => (hknown index hindex offset).trans ?_⟩
    exact or_iff_right Bool.false_ne_true
  · intro count start hcount
    exact Attributes.exists_ends_read x.registry hlen hcount
  · intro a stop h
    exact Attributes.le_of_read hlen h
  · intro count cursor hcount
    exact TreeIndex.exists_ends_intakePaths x.registry offsets hlen hcount
  · obtain ⟨hroom, hpaths⟩ := x.leaves_intaking .readingTree .readingEdges ⟨0, Nat.zero_le _, rfl⟩
      (TreeIndex.leaves_intakePaths_appended x.registry offsets hlen start intake)
    refine ⟨hroom, fun count hcount => ?_⟩
    obtain ⟨hsize, hcursor, hinside⟩ := hpaths count hcount
    exact ⟨hsize, hcursor, hinside⟩

/-- A component in a region of 46 bytes that claims to have more attributes than any region holds. -/
theorem Importer.work_bounded_claimed :
    let bytes := Bytes.zeros 29 ++ List.replicate 8 255 ++ Bytes.zeros 9
    let x : Importer := { phase := .readingHeader }
    bytes.length < UInt64.size ∧
      (x.readTree bytes ⟨.empty, 0⟩).2.2.graph.size ≤ 10 ∧
      ∃ n ≤ 5, Loop.Ends (fun a => Attributes.readRecord x.registry a bytes) (UInt64.size - 1) ∅ 37 n
        (Attributes.read x.registry bytes 29) := by
  intro bytes x
  have hlen : bytes.length < UInt64.size := by decide
  have hcount : Reader.word UInt64 bytes 29 = .ok (Word.ofBytes (bytes.slice 29 wordSize)) 37 :=
    Reader.word_eq_ok.2 ⟨by decide, by decide, rfl, rfl⟩
  have hclaimed : (Word.ofBytes (bytes.slice 29 wordSize) : UInt64).toNat = UInt64.size - 1 := by
    decide
  obtain ⟨htree, hattributes, -⟩ := work_bounded x hlen
  obtain ⟨n, hn, hends⟩ := (hattributes 29).1 _ 37 hcount
  rw [hclaimed] at hends
  obtain ⟨-, -, hcount, hover⟩ := htree ⟨.empty, 0⟩ 11
  obtain ⟨-, hsize, -⟩ := hover (by decide)
  have hten : bytes.length - 36 = 10 := by decide
  refine ⟨hlen, ?_, n, Nat.le_trans hn (by decide), hends⟩
  exact hsize.trans ((Nat.zero_add _).le.trans (hcount.trans hten.le))

end HardwareMap
