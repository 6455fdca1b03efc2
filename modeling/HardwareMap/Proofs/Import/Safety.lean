import HardwareMap.Import.Topology
import HardwareMap.Proofs.Layout.Safety
import HardwareMap.Proofs.Region.Mapped
import HardwareMap.Proofs.Topology.Edit

/-!
# Importing a file that may hold anything

Whatever a file holds, an import of it answers with a graph or says that the file is malformed.  The
graph that is built never refuses an addition: while the tree is read the parents of the waiting
components are in the graph (`Intake.Growing`), and while the paths are read so are the components
that the index knows (`Intake.Joining`).  A path takes up at least one byte, so the count of the
paths is no larger than the cursor and stays a machine word.
-/

namespace HardwareMap

namespace Intaking

variable {α : Type} {region : Bytes} {intake : Intake}

theorem orderly_reading {reader : Reader α} {post : α → Nat → Prop}
    (h : Orderly post (reader region intake.cursor)) :
    Orderly (fun a intake' => intake'.graph = intake.graph ∧ post a intake'.cursor)
      (reading reader region intake) := by
  unfold reading
  cases hread : reader region intake.cursor with
  | ok a cursor =>
    rw [hread] at h
    exact ⟨rfl, h⟩
  | error e cursor =>
    rw [hread] at h
    exact h

/-- What each step keeps, any number of steps keeps. -/
theorem orderly_repeated {inv : Intake → Prop} {step : Intaking Unit}
    (hstep : ∀ intake, inv intake → Orderly (fun _ => inv) (step region intake)) (count : Nat)
    {intake : Intake} (h : inv intake) :
    Orderly (fun _ => inv) (repeated step count region intake) := by
  induction count generalizing intake with
  | zero => exact h
  | succ count ih => exact (hstep intake h).bind fun _ _ h => ih h

end Intaking

/-! ## The tree -/

/-- What holds while the tree is read. -/
structure Intake.Growing (tasks : List ReadTask) (index : TreeIndex) (intake : Intake) : Prop where
  parents_lt : ∀ task ∈ tasks, ∀ p, task.parent = some p → p < intake.graph.size
  known_lt : ∀ offset c, index.offsets.get? offset = some c → c < intake.graph.size
  livePaths_eq : intake.graph.livePaths = 0

theorem Intake.growing_empty (cursor : Nat) :
    Growing [{ offset := 0, parent := none }] {} ⟨.empty, cursor⟩ where
  parents_lt := by simp
  known_lt offset c hget := by cases hget
  livePaths_eq := rfl

/-- The end of the child table of a component that can be read is an offset in the region. -/
theorem ReadMember.orderly_readAt (r : Registry) (offset : Nat) {region : Bytes}
    (hlen : region.length < UInt64.size) (cursor : Nat) :
    Orderly (fun _ cursor' => cursor' ≤ region.length) (readAt r offset region cursor) := by
  refine (Reader.orderly_seek offset).bind ?_
  rintro _ start ⟨hstart, rfl⟩
  refine (Component.advances_readRecord region start hlen hstart).bind ?_
  rintro ⟨component, table⟩ cursor ⟨-, hcursor⟩
  refine (Attributes.advances_read r region cursor hlen hcursor).bind ?_
  rintro attributes cursor ⟨-, hcursor⟩
  refine Reader.orderly_position (table.orderly_offsets.bind ?_)
  rintro children cursor ⟨htable, rfl⟩
  refine (Reader.orderly_mul (show children.length * wordSize < UInt64.size by omega)).bind ?_
  rintro size cursor ⟨rfl, rfl⟩
  refine (Reader.orderly_add (Nat.lt_of_le_of_lt htable hlen)).bind ?_
  rintro stop cursor ⟨-, rfl⟩
  exact hcursor

/-- A component that was read goes under its parent, and its children wait for it. -/
theorem Intake.Growing.step {task : ReadTask} {rest : List ReadTask}
    {index : TreeIndex} {intake : Intake} (h : Growing (task :: rest) index intake)
    (c : Component) (children : List Nat) (stop cursor : Nat) :
    ∃ graph, intake.graph.addComponent task.parent c = (.ok intake.graph.size, graph) ∧
      Growing (children.map (fun offset => { offset, parent := some intake.graph.size }) ++ rest)
        (index.insert task.offset intake.graph.size stop) { graph, cursor } := by
  rcases intake.graph.addComponent_cases task.parent c with ⟨p, hp, hle, -⟩ | ⟨graph, hadd, hnew, -⟩
  · exact absurd (h.parents_lt task List.mem_cons_self p hp) (Nat.not_lt.2 hle)
  · have hself : intake.graph.size < graph.size := by
      rw [hnew.size_eq]
      exact Nat.lt_succ_self _
    refine ⟨graph, hadd, ?_, ?_, hnew.livePaths_eq.trans h.livePaths_eq⟩
    · intro other hother p hp
      rcases List.mem_append.1 hother with hchild | hold
      · obtain ⟨offset, -, rfl⟩ := List.mem_map.1 hchild
        cases hp
        exact hself
      · exact Nat.lt_trans (h.parents_lt other (List.mem_cons_of_mem _ hold) p hp) hself
    · intro offset d hd
      rw [TreeIndex.insert, SortedMap.get?_insert] at hd
      split at hd
      · cases hd
        exact hself
      · exact Nat.lt_trans (h.known_lt offset d hd) hself

/-- Reading the tree ends as it should: each task is there to be read or the bytes are at fault, and
the graph takes what was read. -/
theorem TreeIndex.orderly_readTasks (r : Registry) {region : Bytes}
    (hlen : region.length < UInt64.size) {tasks : List ReadTask} {index : TreeIndex} {intake : Intake}
    (h : intake.Growing tasks index) :
    Orderly (fun index intake => intake.Growing [] index)
      (readTasks r region tasks index intake) := by
  fun_induction readTasks r region tasks index intake with
  | case1 index intake => exact h
  | case2 index intake task rest hnew => exact ⟨task.offset, .referencedTwice, rfl⟩
  | case3 index intake task rest hnew e cursor hread =>
    have hmember := ReadMember.orderly_readAt r task.offset hlen intake.cursor
    rw [hread] at hmember
    exact hmember
  | case4 index intake task rest hnew read cursor hread e graph hadd =>
    obtain ⟨graph', hadd', -⟩ := h.step read.component read.children read.stop cursor
    rw [hadd'] at hadd
    cases hadd
  | case5 index intake task rest hnew read cursor hread id graph hadd waiting ih =>
    obtain ⟨graph', hadd', hgrowing⟩ := h.step read.component read.children read.stop cursor
    rw [hadd'] at hadd
    cases hadd
    exact ih hgrowing

/-! ## The paths -/

/-- What holds while paths are read. -/
structure Intake.Joining (region : Bytes) (offsets : SortedMap Nat ComponentId) (intake : Intake) :
    Prop where
  cursor_le : intake.cursor ≤ region.length
  known_lt : ∀ offset c, offsets.get? offset = some c → c < intake.graph.size
  livePaths_le : intake.graph.livePaths ≤ intake.cursor

namespace TreeIndex

variable {region : Bytes} {offsets : SortedMap Nat ComponentId}

/-- An end of a path is a component that the index knows. -/
theorem orderly_endpoint (start offset cursor : Nat) :
    Orderly (fun c cursor' => offsets.get? offset = some c ∧ cursor' = cursor)
      (endpoint offsets start offset region cursor) := by
  unfold endpoint
  cases hget : offsets.get? offset with
  | none => exact Reader.orderly_fail _ _
  | some c => exact ⟨rfl, rfl⟩

/-- A path that can be read has ends that the index knows, and takes up its record and the count of
its attributes at least. -/
theorem orderly_readPath (r : Registry) (hlen : region.length < UInt64.size) {cursor : Nat}
    (hcursor : cursor ≤ region.length) :
    Orderly (fun p cursor' => (∃ offset, offsets.get? offset = some p.source) ∧
        (∃ offset, offsets.get? offset = some p.target) ∧
        cursor + (PathRecord.size + wordSize) ≤ cursor' ∧ cursor' ≤ region.length)
      (readPath r offsets region cursor) := by
  refine Reader.orderly_position ((PathRecord.advances_read region cursor hlen hcursor).bind ?_)
  rintro p middle ⟨hrecord, hmiddle⟩
  refine (orderly_endpoint cursor p.source middle).bind ?_
  rintro source middle ⟨hsource, rfl⟩
  refine (orderly_endpoint cursor p.target middle).bind ?_
  rintro target middle ⟨htarget, rfl⟩
  refine (Attributes.advances_read r region middle hlen hmiddle).bind ?_
  rintro attributes cursor' ⟨hattributes, hcursor'⟩
  exact ⟨⟨p.source, hsource⟩, ⟨p.target, htarget⟩, by omega, hcursor'⟩

/-- The graph takes a path that was read, and its count of paths stays behind the cursor. -/
theorem orderly_intakePath (r : Registry) (hlen : region.length < UInt64.size) {intake : Intake}
    (h : intake.Joining region offsets) :
    Orderly (fun _ intake' => intake'.Joining region offsets)
      (intakePath r offsets region intake) := by
  refine (Intaking.orderly_reading (orderly_readPath r hlen h.cursor_le)).bind ?_
  rintro p ⟨graph, cursor⟩ ⟨rfl, ⟨source, hsource⟩, ⟨target, htarget⟩, hstep, hcursor⟩
  have hlive : intake.graph.livePaths + 1 ≤ cursor := by
    have hsize : 0 < PathRecord.size := by decide
    have hle := h.livePaths_le
    simp only at hstep
    omega
  rcases intake.graph.addPath_cases p.source p.target p.orientation p.type p.toAnnotations with
    ⟨c, hc, hle, -⟩ | ⟨graph', hadd, -, -, hjoin⟩
  · have hlt : c < intake.graph.size := by
      rcases hc with rfl | rfl
      · exact h.known_lt source _ hsource
      · exact h.known_lt target _ htarget
    exact absurd hlt (Nat.not_lt.2 hle)
  · have hjoined : Intake.Joining region offsets ⟨graph', cursor⟩ := {
      cursor_le := hcursor
      known_lt := by
        intro offset c hget
        rw [hjoin.size_eq]
        exact h.known_lt offset c hget
      livePaths_le := by
        show graph'.livePaths ≤ cursor
        rw [hjoin.livePaths_eq]
        exact hlive }
    have hadding : Orderly (fun _ intake' => intake' = ⟨graph', cursor⟩)
        (Intaking.adding (fun g =>
          g.addPath p.source p.target p.orientation p.type p.toAnnotations) region
            ⟨intake.graph, cursor⟩) := by
      rw [Intaking.adding, hadd]
      exact rfl
    have hcounting : Orderly (fun _ intake' => intake'.Joining region offsets)
        (Intaking.reading (Reader.add intake.graph.livePaths 1) region ⟨graph', cursor⟩) := by
      have hword := Nat.lt_of_le_of_lt (Nat.le_trans hlive hcursor) hlen
      refine (Intaking.orderly_reading (Reader.orderly_add hword)).mono ?_
      rintro _ ⟨graph'', cursor''⟩ ⟨rfl, -, rfl⟩
      exact hjoined
    refine hadding.discard.bind ?_
    rintro _ _ rfl
    exact hcounting.discard

/-- Reading the paths ends as it should, however many there are said to be. -/
theorem orderly_intakePaths (r : Registry) (hlen : region.length < UInt64.size) (start : Nat)
    {intake : Intake} (hknown : ∀ offset c, offsets.get? offset = some c → c < intake.graph.size)
    (hlive : intake.graph.livePaths = 0) :
    Orderly (fun _ intake' => intake'.Joining region offsets)
      (intakePaths r offsets start region intake) := by
  have hcount : Orderly (fun _ cursor => cursor ≤ region.length)
      ((do Reader.seek start; Reader.word UInt64 : Reader UInt64) region intake.cursor) := by
    refine (Reader.orderly_seek start).bind ?_
    rintro _ start ⟨hstart, rfl⟩
    exact (Reader.advances_word UInt64 region start hlen hstart).mono fun _ _ h => h.2
  refine (Intaking.orderly_reading hcount).bind ?_
  rintro count ⟨graph, cursor⟩ ⟨rfl, hcursor⟩
  have hjoining : Intake.Joining region offsets ⟨intake.graph, cursor⟩ :=
    ⟨hcursor, hknown, by rw [hlive]; exact Nat.zero_le _⟩
  refine (Intaking.orderly_repeated (fun _ => orderly_intakePath r hlen) count.toNat hjoining).bind ?_
  intro _ _ hjoined
  exact hjoined

end TreeIndex

/-! ## The file -/

/-- With room for a component, a run reads the tree and then the paths. -/
theorem Importer.run_eq (r : Registry) {region : Bytes}
    (hroom : ¬ region.length < Component.minSize) (cursor : Nat) :
    run { registry := r } region cursor =
      match TreeIndex.readTasks r region [{ offset := 0, parent := none }] {} ⟨.empty, cursor⟩ with
      | .error e intake => (.error e, intake.cursor)
      | .ok index intake =>
        match TreeIndex.intakePaths r index.offsets index.stop region intake with
        | .error e intake => (.error e, intake.cursor)
        | .ok _ intake => (.ok intake.graph, intake.cursor) := by
  simp only [run, readHeader, readTree, intaking, enter, if_true, if_neg hroom]
  cases TreeIndex.readTasks r region [{ offset := 0, parent := none }] {} ⟨.empty, cursor⟩ with
  | error e intake => rfl
  | ok index intake =>
    simp only [readPaths, intaking, enter, if_true]
    cases TreeIndex.intakePaths r index.offsets index.stop region intake with
    | error e intake => rfl
    | ok count intake => rfl

theorem Importer.run_eq_ok {r : Registry} {region : Bytes} {cursor cursor' : Nat} {g : Graph} :
    run { registry := r } region cursor = (.ok g, cursor') ↔
      ¬ region.length < Component.minSize ∧ ∃ index intake count,
        TreeIndex.readTasks r region [{ offset := 0, parent := none }] {} ⟨.empty, cursor⟩ =
          .ok index intake ∧
        TreeIndex.intakePaths r index.offsets index.stop region intake =
          .ok count ⟨g, cursor'⟩ := by
  by_cases hroom : region.length < Component.minSize
  · simp [run, readHeader, enter, hroom]
  · rw [run_eq r hroom]
    constructor
    · intro h
      split at h
      · cases h
      · next index intake hread =>
        split at h
        · cases h
        · next count intake' hpaths =>
          cases h
          exact ⟨hroom, index, intake, count, hread, hpaths⟩
    · rintro ⟨-, index, intake, count, hread, hpaths⟩
      simp only [hread, hpaths]

/-- A run on a region of any bytes answers with a graph, or says that they are malformed. -/
theorem Importer.run_ok_or_malformed (r : Registry) {region : Bytes} (hlen : region.length < UInt64.size)
    (cursor : Nat) :
    (∃ g, (run { registry := r } region cursor).1 = .ok g) ∨
      ∃ offset fault, (run { registry := r } region cursor).1 = .error (.malformed offset fault) := by
  have htree := TreeIndex.orderly_readTasks r hlen (Intake.growing_empty cursor)
  by_cases hroom : region.length < Component.minSize
  · refine .inr ⟨0, .noRoomForRoot region.length Component.minSize, ?_⟩
    simp only [run, readHeader, enter, if_true, if_pos hroom]
  · rw [run_eq r hroom]
    cases hread : TreeIndex.readTasks r region [{ offset := 0, parent := none }] {}
      ⟨.empty, cursor⟩ with
    | error e intake =>
      rw [hread] at htree
      obtain ⟨offset, fault, rfl⟩ := htree
      exact .inr ⟨offset, fault, rfl⟩
    | ok index intake =>
      rw [hread] at htree
      have hpaths := TreeIndex.orderly_intakePaths r hlen index.stop htree.known_lt
        htree.livePaths_eq
      simp only
      cases hjoin : TreeIndex.intakePaths r index.offsets index.stop region intake with
      | error e intake' =>
        rw [hjoin] at hpaths
        obtain ⟨offset, fault, rfl⟩ := hpaths
        exact .inr ⟨offset, fault, rfl⟩
      | ok count intake' => exact .inl ⟨intake'.graph, rfl⟩

/-- A run that answers leaves the cursor inside of the region. -/
theorem Importer.cursor_le_of_run {r : Registry} {region : Bytes} (hlen : region.length < UInt64.size)
    {cursor cursor' : Nat} {g : Graph}
    (h : run { registry := r } region cursor = (.ok g, cursor')) : cursor' ≤ region.length := by
  obtain ⟨-, index, intake, count, hread, hpaths⟩ := run_eq_ok.1 h
  have htree := TreeIndex.orderly_readTasks r hlen (Intake.growing_empty cursor)
  rw [hread] at htree
  have hjoined := TreeIndex.orderly_intakePaths r hlen index.stop htree.known_lt htree.livePaths_eq
  rw [hpaths] at hjoined
  exact hjoined.cursor_le

namespace Graph

variable {path : String} {custom : Table} {t : FileTree} {g : Graph}

/-- An import of a file with a correct header is a run on its region. -/
theorem importFrom_of_fileOf {region : Bytes} (h : t.read? path = some (Region.fileOf region))
    (hlen : headerSize + region.length < UInt64.size) :
    importFrom path custom t = (Importer.run { registry := { custom } } region 0).1 := by
  obtain ⟨file, hlookup, hmay, hcontents⟩ := FileTree.read?_eq_some.1 h
  obtain ⟨mapped, hview, hopen⟩ := Region.openExisting_fileOf hlookup hcontents hlen
  rw [if_pos hmay] at hopen
  have hcursor : mapped.cursor = 0 := by
    obtain ⟨-, -, -, -, hmapped⟩ := Region.openExisting_eq_ok hopen
    rw [hmapped]
  rw [importFrom, hopen]
  show (mapped.view t >>= fun bytes =>
    (Importer.run { registry := { custom } } bytes mapped.cursor).1) = _
  rw [hview, hcursor]
  rfl

/-- A file that is imported has a correct header. -/
theorem exists_fileOf_of_importFrom (h : importFrom path custom t = .ok g) :
    ∃ region, t.read? path = some (Region.fileOf region) ∧
      headerSize + region.length < UInt64.size := by
  rw [importFrom] at h
  cases hopen : Region.openExisting path t with
  | error e =>
    rw [hopen] at h
    cases h
  | ok mapped =>
    obtain ⟨hlookup, hmay, hle, hrecorded, -⟩ := Region.openExisting_eq_ok hopen
    obtain ⟨hfile, hlen⟩ := Region.fileOf_drop hle hrecorded
    exact ⟨_, FileTree.read?_eq_some.2 ⟨mapped.file, hlookup, hmay, hfile.symm⟩, hlen⟩

theorem importFrom_of_length_lt {file : Bytes} (h : t.read? path = some file)
    (hshort : file.length < headerSize) :
    importFrom path custom t = .error (.malformed 0 (.shorterThanHeader file.length)) := by
  obtain ⟨id, hlookup, hmay, rfl⟩ := FileTree.read?_eq_some.1 h
  simp only [importFrom, Region.openExisting, hlookup, hmay, if_pos hshort]
  rfl

end Graph

/-- **Safety of imports**: whatever a file holds, an import of it answers with a graph or says that
the file is malformed. -/
theorem Graph.importFrom_ok_or_malformed (path : String) (custom : Table) {t : FileTree}
    {bytes : Bytes} (h : t.read? path = some bytes) :
    (∃ g, importFrom path custom t = .ok g) ∨
      ∃ offset fault, importFrom path custom t = .error (.malformed offset fault) := by
  rcases Region.openExisting_cases h with ⟨offset, fault, hfault⟩ | ⟨region, hopen, hview, hlen⟩
  · refine .inr ⟨offset, fault, ?_⟩
    rw [importFrom, hfault]
    rfl
  · have hrun := Importer.run_ok_or_malformed { custom } hlen region.cursor
    rw [importFrom, hopen]
    show (∃ g, (region.view t >>= _) = .ok g) ∨
      ∃ offset fault, (region.view t >>= _) = .error (.malformed offset fault)
    rw [hview]
    exact hrun

/-- A file whose component claims more children than any file can list. -/
theorem Graph.importFrom_ok_or_malformed_children :
    let t := (FileTree.addFile {} ["node"]
      { bytes := Region.fileOf (Bytes.zeros 20 ++ List.replicate 8 255 ++ Bytes.zeros 9) }).2
    (∃ bytes, t.read? "node" = some bytes) ∧
      ((∃ g, importFrom "node" ∅ t = .ok g) ∨
        ∃ offset fault, importFrom "node" ∅ t = .error (.malformed offset fault)) :=
  ⟨⟨_, rfl⟩, importFrom_ok_or_malformed "node" ∅ rfl⟩

end HardwareMap
