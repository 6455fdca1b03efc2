import HardwareMap.Proofs.Import.LaterExports
import HardwareMap.Proofs.Import.Paths
import HardwareMap.Proofs.Import.Safety
import HardwareMap.Proofs.Region.Extension
import HardwareMap.Proofs.Topology.Grafting
import HardwareMap.Proofs.Topology.Paths

/-!
# Reading into a graph that holds something already

The phases of an import may be run on a graph of the caller.  Whatever the bytes are and wherever they
break off, the graph is left well formed, and what was read stands beside what was there
(`Graph.Grafted`): a waiting task names a parent that was added by this very import, or none if it is
the first (`Intake.Grafting`), and so do the offsets that a path may name (`OnlyNew`).

An import that succeeds comes to a graph with one root, whose components are numbered in the order of
its subtree (`TreeIndex.visits_readTasks`), and with as many paths as the count in front of them says.
-/

namespace HardwareMap

/-! ## What a computation leaves behind -/

/-- A computation leaves a valid graph behind, be it that it succeeds or that it fails; the answer of
one that succeeds satisfies `post` besides. -/
def Leaves {α : Type} (valid : Graph → Prop) (post : α → Intake → Prop) :
    EStateM.Result Error Intake α → Prop
  | .ok a intake => valid intake.graph ∧ post a intake
  | .error _ intake => valid intake.graph

namespace Leaves

variable {α β : Type} {valid : Graph → Prop} {post : α → Intake → Prop} {region : Bytes}
  {intake : Intake}

theorem bind {goal : β → Intake → Prop} {m : Intaking α} {f : α → Intaking β}
    (hm : Leaves valid post (m region intake))
    (hf : ∀ a t, valid t.graph → post a t → Leaves valid goal (f a region t)) :
    Leaves valid goal ((m >>= f) region intake) := by
  cases hfirst : m region intake with
  | ok a t =>
    have hbind : (m >>= f) region intake = f a region t := bind_of_ok hfirst
    rw [hfirst] at hm
    rw [hbind]
    exact hf a t hm.1 hm.2
  | error e t =>
    have hbind : (m >>= f) region intake = .error e t := bind_of_error hfirst
    rw [hfirst] at hm
    rw [hbind]
    exact hm

theorem mono {valid' : Graph → Prop} {post' : α → Intake → Prop}
    {result : EStateM.Result Error Intake α} (h : Leaves valid post result)
    (hvalid : ∀ graph, valid graph → valid' graph) (hpost : ∀ a t, post a t → post' a t) :
    Leaves valid' post' result := by
  cases result with
  | ok a t => exact ⟨hvalid _ h.1, hpost a t h.2⟩
  | error e t => exact hvalid _ h

theorem discard {goal : Intake → Prop} {m : Intaking α}
    (hm : Leaves valid post (m region intake)) (hgoal : ∀ a t, post a t → goal t) :
    Leaves valid (fun _ => goal) ((Functor.discard m : Intaking Unit) region intake) :=
  hm.bind (f := fun _ => Pure.pure ()) fun a t hvalid hpost => ⟨hvalid, hgoal a t hpost⟩

/-- Reading alone leaves the graph as it was. -/
theorem reading {reader : Reader α} (h : valid intake.graph) :
    Leaves valid (fun a t => t.graph = intake.graph ∧
      reader region intake.cursor = .ok a t.cursor)
      (Intaking.reading reader region intake) := by
  unfold Intaking.reading
  cases reader region intake.cursor with
  | ok a cursor => exact ⟨h, rfl, rfl⟩
  | error e cursor => exact h

theorem repeated {step : Intaking Unit}
    (hstep : ∀ t, valid t.graph → Leaves valid (fun _ _ => True) (step region t)) (count : Nat)
    {intake : Intake} (h : valid intake.graph) :
    Leaves valid (fun _ _ => True) (Intaking.repeated step count region intake) := by
  induction count generalizing intake with
  | zero => exact ⟨h, trivial⟩
  | succ count ih => exact (hstep intake h).bind fun _ _ hvalid _ => ih hvalid

end Leaves

/-! ## The tree -/

/-- Every component that an index knows is one that was added to a graph. -/
def OnlyNew (g : Graph) (offsets : SortedMap Nat ComponentId) (g' : Graph) : Prop :=
  ∀ offset c, offsets.get? offset = some c → g.size ≤ c ∧ c < g'.size

/-- What holds while a tree is read into a graph. -/
structure Intake.Grafting (g : Graph) (tasks : List ReadTask) (index : TreeIndex)
    (intake : Intake) : Prop where
  grafted : g.Grafted intake.graph
  /-- Either nothing was read, or all tasks wait for components that were. -/
  waiting : (tasks = [{ offset := 0, parent := none }] ∧ intake.graph.size = g.size) ∨
    ∀ task ∈ tasks, ∃ p, task.parent = some p ∧ g.size ≤ p ∧ p < intake.graph.size
  known : OnlyNew g index.offsets intake.graph

theorem Intake.grafting_start {g : Graph} (h : g.WellFormed) (cursor : Nat) :
    Grafting g [{ offset := 0, parent := none }] {} ⟨g, cursor⟩ where
  grafted := h.grafted_self
  waiting := .inl ⟨rfl, rfl⟩
  known offset c hget := by cases hget

/-- A component that was read goes under its parent, and its children wait for it. -/
theorem Intake.Grafting.step {g : Graph} {task : ReadTask} {rest : List ReadTask}
    {index : TreeIndex} {intake : Intake} (h : Grafting g (task :: rest) index intake)
    (c : Component) (children : List Nat) (stop cursor : Nat) :
    ∃ graph, intake.graph.addComponent task.parent c = (.ok intake.graph.size, graph) ∧
      Grafting g (children.map (fun offset => { offset, parent := some intake.graph.size }) ++ rest)
        (index.insert task.offset intake.graph.size stop) ⟨graph, cursor⟩ := by
  have hparent : (task.parent = none ∧ intake.graph.size = g.size) ∨
      ∃ p, task.parent = some p ∧ g.size ≤ p ∧ p < intake.graph.size := by
    rcases h.waiting with ⟨hfirst, hsize⟩ | hall
    · obtain ⟨rfl, -⟩ := List.cons.inj hfirst
      exact .inl ⟨rfl, hsize⟩
    · exact .inr (hall task List.mem_cons_self)
  have hrest : ∀ other ∈ rest, ∃ p, other.parent = some p ∧ g.size ≤ p ∧ p < intake.graph.size := by
    intro other hother
    rcases h.waiting with ⟨hfirst, -⟩ | hall
    · rw [(List.cons.inj hfirst).2] at hother
      cases hother
    · exact hall other (List.mem_cons_of_mem _ hother)
  rcases intake.graph.addComponent_cases task.parent c with ⟨p, hp, hle, -⟩ | ⟨graph, hadd, hnew, -⟩
  · rw [hp] at hparent
    obtain ⟨hnone, -⟩ | ⟨_, ⟨⟩, -, hlt⟩ := hparent
    · cases hnone
    · exact absurd hlt (Nat.not_lt.2 hle)
  · have hself : intake.graph.size < graph.size := by
      rw [hnew.size_eq]
      exact Nat.lt_succ_self _
    refine ⟨graph, hadd, h.grafted.added hnew hparent, .inr ?_, ?_⟩
    · intro other hother
      rcases List.mem_append.1 hother with hchild | hold
      · obtain ⟨offset, -, rfl⟩ := List.mem_map.1 hchild
        exact ⟨intake.graph.size, rfl, h.grafted.size_le, hself⟩
      · obtain ⟨p, hp, hle, hlt⟩ := hrest other hold
        exact ⟨p, hp, hle, Nat.lt_trans hlt hself⟩
    · intro offset d hd
      rw [TreeIndex.insert, SortedMap.get?_insert] at hd
      split at hd
      · cases hd
        exact ⟨h.grafted.size_le, hself⟩
      · obtain ⟨hle, hlt⟩ := h.known offset d hd
        exact ⟨hle, Nat.lt_trans hlt hself⟩

namespace TreeIndex

variable {g : Graph} {r : Registry} {region : Bytes}

/-- Wherever the reading of a tree ends, the graph was extended by what was read till then. -/
theorem leaves_readTasks (r : Registry) (region : Bytes) {tasks : List ReadTask}
    {index : TreeIndex} {intake : Intake} (h : intake.Grafting g tasks index) :
    Leaves g.Grafted (fun index intake => OnlyNew g index.offsets intake.graph)
      (readTasks r region tasks index intake) := by
  fun_induction readTasks r region tasks index intake with
  | case1 index intake => exact ⟨h.grafted, h.known⟩
  | case2 index intake task rest hnew => exact h.grafted
  | case3 index intake task rest hnew e cursor hread => exact h.grafted
  | case4 index intake task rest hnew read cursor hread e graph hadd =>
    obtain ⟨graph', hadd', -⟩ := h.step read.component read.children read.stop cursor
    rw [hadd'] at hadd
    cases hadd
  | case5 index intake task rest hnew read cursor hread id graph hadd waiting ih =>
    obtain ⟨graph', hadd', hgrafting⟩ := h.step read.component read.children read.stop cursor
    rw [hadd'] at hadd
    cases hadd
    exact ih hgrafting

/-! ## The paths -/

variable {offsets : SortedMap Nat ComponentId}

/-- The ends of a path that was read are components that the index knows. -/
theorem exists_offset_of_readPath {s s' : Nat} {p : DataPath}
    (h : readPath r offsets region s = .ok p s') :
    (∃ offset, offsets.get? offset = some p.source) ∧
      ∃ offset, offsets.get? offset = some p.target := by
  have hend : ∀ {start offset s s' : Nat} {c : ComponentId},
      endpoint offsets start offset region s = .ok c s' → offsets.get? offset = some c := by
    intro start offset s s' c hread
    unfold endpoint at hread
    cases hget : offsets.get? offset with
    | none =>
      rw [hget] at hread
      cases hread
    | some id =>
      rw [hget] at hread
      cases hread
      rfl
  obtain ⟨start, _, -, h⟩ := Reader.bind_eq_ok.1 h
  obtain ⟨record, _, -, h⟩ := Reader.bind_eq_ok.1 h
  obtain ⟨source, _, hsource, h⟩ := Reader.bind_eq_ok.1 h
  obtain ⟨target, _, htarget, h⟩ := Reader.bind_eq_ok.1 h
  obtain ⟨attributes, _, -, h⟩ := Reader.bind_eq_ok.1 h
  cases h
  exact ⟨⟨_, hend hsource⟩, ⟨_, hend htarget⟩⟩

/-- A path that was read joins two components of the tree. -/
theorem leaves_intakePath {intake : Intake}
    (h : g.Grafted intake.graph ∧ OnlyNew g offsets intake.graph) :
    Leaves (fun graph => g.Grafted graph ∧ OnlyNew g offsets graph) (fun _ _ => True)
      (intakePath r offsets region intake) := by
  refine (Leaves.reading h).bind ?_
  rintro p ⟨graph, cursor⟩ ⟨hgrafted, hknown⟩ ⟨-, hread⟩
  obtain ⟨⟨_, hsource⟩, ⟨_, htarget⟩⟩ := exists_offset_of_readPath hread
  have hadding : Leaves (fun graph => g.Grafted graph ∧ OnlyNew g offsets graph) (fun _ _ => True)
      (Intaking.adding (fun g => g.addPath p.source p.target p.orientation p.type p.toAnnotations)
        region ⟨graph, cursor⟩) := by
    simp only [Intaking.adding]
    rcases graph.addPath_cases p.source p.target p.orientation p.type p.toAnnotations with
      ⟨c, -, -, hadd⟩ | ⟨graph', hadd, -, -, hjoin⟩
    · rw [hadd]
      exact ⟨hgrafted, hknown⟩
    · rw [hadd]
      refine ⟨⟨hgrafted.joined hjoin (hknown _ _ hsource) (hknown _ _ htarget), ?_⟩, trivial⟩
      intro offset c hget
      have hlt := hknown offset c hget
      rw [← hjoin.size_eq] at hlt
      exact hlt
  have hlive : Leaves (fun graph => g.Grafted graph ∧ OnlyNew g offsets graph)
      (fun _ intake => intake = ⟨graph, cursor⟩)
      (Intaking.livePaths region ⟨graph, cursor⟩) := ⟨⟨hgrafted, hknown⟩, rfl⟩
  refine hlive.bind ?_
  rintro live _ - rfl
  refine (hadding.discard fun _ _ _ => trivial).bind fun _ intake' hvalid _ => ?_
  exact (Leaves.reading hvalid).discard fun _ _ _ => trivial

theorem leaves_intakePaths (r : Registry) (region : Bytes) {intake : Intake}
    (hgrafted : g.Grafted intake.graph) (hknown : OnlyNew g offsets intake.graph) (start : Nat) :
    Leaves g.Grafted (fun _ _ => True) (intakePaths r offsets start region intake) := by
  have hboth : Leaves (fun graph => g.Grafted graph ∧ OnlyNew g offsets graph) (fun _ _ => True)
      (intakePaths r offsets start region intake) := by
    refine (Leaves.reading ⟨hgrafted, hknown⟩).bind fun count t hvalid _ => ?_
    refine (Leaves.repeated (fun _ => leaves_intakePath) count.toNat hvalid).bind ?_
    intro _ t hvalid _
    exact ⟨hvalid, trivial⟩
  exact hboth.mono (fun _ h => h.1) fun _ _ _ => trivial

end TreeIndex

/-- A phase that is refused leaves the graph as it was. -/
theorem Importer.leaves_intaking {α : Type} (x : Importer) (former next : ImportPhase)
    {m : Intaking α} {region : Bytes} {intake : Intake} {valid : Graph → Prop}
    {post : α → Intake → Prop} (hvalid : valid intake.graph)
    (h : Leaves valid post (m region intake)) :
    valid (x.intaking former next m region intake).2.2.graph ∧
      ∀ a, (x.intaking former next m region intake).1 = .ok a →
        post a (x.intaking former next m region intake).2.2 := by
  unfold intaking
  cases x.enter former next with
  | error e =>
    refine ⟨hvalid, ?_⟩
    rintro a ⟨⟩
  | ok y =>
    cases hm : m region intake with
    | ok a t =>
      rw [hm] at h
      refine ⟨h.1, ?_⟩
      rintro _ ⟨⟩
      exact h.2
    | error e t =>
      rw [hm] at h
      refine ⟨h, ?_⟩
      rintro a ⟨⟩

/-! ## The order of the numbers -/

/-- The components that were there keep their parents, and no path is added. -/
structure Graph.Grown (g g' : Graph) : Prop where
  size_le : g.size ≤ g'.size
  parent?_eq : ∀ c, c < g.size → g'.parent? c = g.parent? c
  livePaths_eq : g'.livePaths = g.livePaths

theorem SortedMap.size_insert {κ β : Type} [Ord κ] [Std.TransOrd κ] [Std.LawfulEqOrd κ]
    [DecidableEq κ] {m : SortedMap κ β} {key : κ} (hnew : m.contains key = false) (value : β) :
    (m.insert key value).size = m.size + 1 := by
  have hfresh : ∀ entry ∈ m.entries, key ≠ entry.1 := by
    rintro ⟨_, other⟩ hentry rfl
    rw [contains, mem_entries.1 hentry] at hnew
    cases hnew
  have hlength : ∀ entries : List (κ × β), (∀ entry ∈ entries, key ≠ entry.1) →
      (setEntry key value entries).length = entries.length + 1 := by
    intro entries
    induction entries with
    | nil => exact fun _ => rfl
    | cons first rest ih =>
      intro hapart
      rw [setEntry]
      split
      · rfl
      · next heq =>
        exact absurd (Std.LawfulEqCmp.eq_of_compare heq) (hapart first List.mem_cons_self)
      · rw [List.length_cons, ih fun entry hentry => hapart entry (List.mem_cons_of_mem _ hentry),
          List.length_cons]
  exact hlength m.entries hfresh

/-- Where a forest is visited in the order of its numbers, the children of the component with the
number before are the first tops if none of the others is its child. -/
theorem Graph.Forest.children_eq_of_visits {g : Graph} (h : g.Forest) {c n : Nat}
    {kids others : List ComponentId} (hvisits : g.Visits (kids ++ others) (List.range' (c + 1) n))
    (hsize : g.size = c + 1 + n) (hkids : ∀ d ∈ kids, g.parent? d = some c)
    (hothers : ∀ d ∈ others, g.parent? d ≠ some c) : g.children c = kids := by
  let order := List.range' (c + 1) n
  have horder : ∀ d, d ∈ order ↔ c < d ∧ d < g.size := by
    intro d
    rw [List.mem_range'_1]
    omega
  have hascending : kids.Pairwise (· < ·) :=
    List.Pairwise.sublist ((List.sublist_append_left _ _).trans hvisits.sublist)
      List.pairwise_lt_range'
  refine eq_of_ascending id (h.children_ascending _) hascending fun d => ?_
  rw [h.mem_children]
  refine ⟨fun hd => ?_, hkids d⟩
  -- A child is visited, and it is no child of what is visited, so it is one of the tops.
  have hmem : d ∈ order := (horder d).2 ⟨h.parent_lt d _ hd, Graph.lt_of_parent? hd⟩
  have hnone : order.count c = 0 :=
    List.count_eq_zero.2 fun hin => Nat.lt_irrefl _ ((horder _).1 hin).1
  have hcount : order.count d =
      (kids ++ others).count d + (order.flatMap g.children).count d := hvisits.count_eq d
  rw [h.count_flatMap_children, hd] at hcount
  simp only [hnone, Nat.add_zero] at hcount
  have hpos := List.count_pos_iff.2 hmem
  rw [hcount] at hpos
  exact (List.mem_append.1 (List.count_pos_iff.1 hpos)).resolve_right fun hother =>
    hothers d hother hd

namespace TreeIndex

variable {r : Registry} {region : Bytes} {index' : TreeIndex} {intake' : Intake}

/-- A component that is added without failure has the next number. -/
theorem eq_size_of_addComponent {g g' : Graph} {parent : Option ComponentId} {c : Component}
    {id : ComponentId} (h : g.addComponent parent c = (.ok id, g')) :
    id = g.size ∧ Graph.Added g parent c g' := by
  rcases g.addComponent_cases parent c with ⟨p, -, -, herror⟩ | ⟨graph, hok, hadd, -⟩
  · rw [herror] at h
    cases h
  · rw [hok] at h
    cases h
    exact ⟨rfl, hadd⟩

/-- Reading a tree adds one component for every offset. -/
theorem grown_readTasks {tasks : List ReadTask} {index : TreeIndex} {intake : Intake}
    (h : readTasks r region tasks index intake = .ok index' intake') :
    intake.graph.Grown intake'.graph ∧
      index'.offsets.size + intake.graph.size = index.offsets.size + intake'.graph.size := by
  fun_induction readTasks r region tasks index intake with
  | case1 index intake =>
    cases h
    exact ⟨⟨Nat.le_refl _, fun _ _ => rfl, rfl⟩, rfl⟩
  | case2 => cases h
  | case3 => cases h
  | case4 => cases h
  | case5 index intake task rest hnew read cursor hread id graph hadd waiting ih =>
    obtain ⟨rfl, hadded⟩ := eq_size_of_addComponent hadd
    obtain ⟨hgrown, hcount⟩ := ih h
    have hsize := hadded.size_eq
    have hle := hgrown.size_le
    have hinsert := SortedMap.size_insert (Bool.eq_false_iff.2 hnew) intake.graph.size
    rw [insert, hinsert] at hcount
    simp only at hcount hle
    refine ⟨⟨by omega, fun c hc => ?_, hgrown.livePaths_eq.trans hadded.livePaths_eq⟩, by omega⟩
    have hlt : c < graph.size := by
      rw [hsize]
      exact Nat.lt_succ_of_lt hc
    rw [hgrown.parent?_eq c hlt, hadded.parent?_eq, if_neg (Nat.ne_of_lt hc)]

/-- The components that are read are numbered in the order in which their forest is visited from the
ones that the tasks become. -/
theorem visits_readTasks {tasks : List ReadTask} {index : TreeIndex} {intake : Intake}
    (h : readTasks r region tasks index intake = .ok index' intake')
    (hparents : ∀ task ∈ tasks, ∀ p, task.parent = some p → p < intake.graph.size)
    (hforest : intake'.graph.Forest) :
    ∃ tops, tops.map intake'.graph.parent? = tasks.map (·.parent) ∧
      Graph.Visits intake'.graph tops
        (List.range' intake.graph.size (intake'.graph.size - intake.graph.size)) := by
  fun_induction readTasks r region tasks index intake with
  | case1 index intake =>
    cases h
    rw [Nat.sub_self]
    exact ⟨[], rfl, .nil⟩
  | case2 => cases h
  | case3 => cases h
  | case4 => cases h
  | case5 index intake task rest hnew read cursor hread id graph hadd waiting ih =>
    obtain ⟨rfl, hadded⟩ := eq_size_of_addComponent hadd
    obtain ⟨hgrown, -⟩ := grown_readTasks h
    have hsize : graph.size = intake.graph.size + 1 := hadded.size_eq
    have hself : intake.graph.size < graph.size := by
      rw [hsize]
      exact Nat.lt_succ_self _
    obtain ⟨tops, htops, hvisits⟩ := ih h (by
      intro other hother p hp
      rcases List.mem_append.1 hother with hchild | hold
      · obtain ⟨offset, -, rfl⟩ := List.mem_map.1 hchild
        cases hp
        exact hself
      · exact Nat.lt_trans (hparents other (List.mem_cons_of_mem _ hold) p hp) hself)
    rw [List.map_append] at htops
    obtain ⟨kids, others, rfl, hkids, hothers⟩ := List.map_eq_append_iff.1 htops
    have hle := hgrown.size_le
    simp only [hsize] at hvisits hle
    let count := intake'.graph.size - (intake.graph.size + 1)
    -- The children of the component are the first ones that wait behind it.
    have hchildren : intake'.graph.children intake.graph.size = kids := by
      refine hforest.children_eq_of_visits hvisits (Nat.add_sub_cancel' hle).symm ?_ ?_
      · intro c hc
        have hparent : intake'.graph.parent? c ∈ waiting.map (·.parent) := by
          rw [← hkids]
          exact List.mem_map_of_mem hc
        obtain ⟨_, hin, hp⟩ := List.mem_map.1 hparent
        obtain ⟨offset, -, rfl⟩ := List.mem_map.1 hin
        exact hp.symm
      · intro c hc hself
        have hparent : some intake.graph.size ∈ rest.map (·.parent) := by
          rw [← hothers, ← hself]
          exact List.mem_map_of_mem hc
        obtain ⟨other, hin, hp⟩ := List.mem_map.1 hparent
        exact Nat.lt_irrefl _ (hparents other (List.mem_cons_of_mem _ hin) _ hp)
    have hrange : List.range' intake.graph.size (intake'.graph.size - intake.graph.size) =
        intake.graph.size :: List.range' (intake.graph.size + 1) count := by
      rw [show intake'.graph.size - intake.graph.size = count + 1 by omega, List.range'_succ]
    refine ⟨intake.graph.size :: others, ?_, ?_⟩
    · rw [List.map_cons, List.map_cons, hothers, hgrown.parent?_eq _ hself, hadded.parent?_eq,
        if_pos rfl]
    · rw [hrange]
      exact .cons (by rw [hchildren]; exact hvisits)

end TreeIndex

/-! ## The count of the paths -/

/-- A graph after a number of paths were added. -/
structure Graph.JoinedBy (g : Graph) (count : Nat) (g' : Graph) : Prop extends SameForest g g' where
  livePaths_eq : g'.livePaths = g.livePaths + count

namespace TreeIndex

variable {r : Registry} {offsets : SortedMap Nat ComponentId} {region : Bytes}
  {intake intake' : Intake}

theorem joinedBy_intakePath (h : intakePath r offsets region intake = .ok () intake') :
    intake.graph.JoinedBy 1 intake'.graph := by
  obtain ⟨p, t, hread, h⟩ := Intaking.bind_eq_ok.1 h
  obtain ⟨live, _, ⟨⟩, h⟩ := Intaking.bind_eq_ok.1 h
  obtain ⟨_, t', hadd, h⟩ := Intaking.bind_eq_ok.1 h
  obtain ⟨_, hadd⟩ := Intaking.discard_eq_ok.1 hadd
  obtain ⟨_, hcount⟩ := Intaking.discard_eq_ok.1 h
  obtain ⟨_, -, rfl⟩ := Intaking.reading_eq_ok.1 hread
  obtain ⟨_, -, rfl⟩ := Intaking.reading_eq_ok.1 hcount
  simp only [Intaking.adding] at hadd
  rcases intake.graph.addPath_cases p.source p.target p.orientation p.type p.toAnnotations with
    ⟨c, -, -, herror⟩ | ⟨graph, hok, -, -, hjoin⟩
  · rw [herror] at hadd
    cases hadd
  · rw [hok] at hadd
    cases hadd
    exact ⟨hjoin.toSameForest, hjoin.livePaths_eq⟩

theorem joinedBy_repeated {count : Nat}
    (h : Intaking.repeated (intakePath r offsets) count region intake = .ok () intake') :
    intake.graph.JoinedBy count intake'.graph := by
  induction count generalizing intake with
  | zero =>
    cases h
    exact ⟨.refl _, rfl⟩
  | succ count ih =>
    obtain ⟨_, t, hfirst, hrest⟩ := Intaking.bind_eq_ok.1 h
    have hone := joinedBy_intakePath hfirst
    have hothers := ih hrest
    refine ⟨hone.toSameForest.trans hothers.toSameForest, ?_⟩
    rw [hothers.livePaths_eq, hone.livePaths_eq, Nat.add_assoc, Nat.add_comm 1]

/-- As many paths are added as the word in front of them says. -/
theorem joinedBy_intakePaths {start count : Nat}
    (h : intakePaths r offsets start region intake = .ok count intake') :
    intake.graph.JoinedBy (Bytes.ofLittleEndian (region.slice start wordSize)) intake'.graph := by
  obtain ⟨stored, t, hread, h⟩ := Intaking.bind_eq_ok.1 h
  obtain ⟨_, t', hrepeated, ⟨⟩⟩ := Intaking.bind_eq_ok.1 h
  obtain ⟨_, hstored, rfl⟩ := Intaking.reading_eq_ok.1 hread
  obtain ⟨_, start', hseek, hword⟩ := Reader.bind_eq_ok.1 hstored
  obtain rfl : start' = start := by
    obtain ⟨_, _, -, hmove⟩ := Reader.bind_eq_ok.1 hseek
    cases hmove
    rfl
  obtain ⟨-, hle, rfl, -⟩ := Reader.word_eq_ok.1 hword
  have hstored : (Word.ofBytes (region.slice start' wordSize) : UInt64).toNat =
      Bytes.ofLittleEndian (region.slice start' wordSize) :=
    Word.code_ofBytes (Bytes.length_slice hle)
  have hjoined := joinedBy_repeated hrepeated
  rw [← hstored]
  exact hjoined

end TreeIndex

/-! ## The phases of an import -/

namespace Graph

/-- The phases of an import run on a well-formed graph, whatever the bytes are. -/
theorem WellFormed.grafted_of_phases {g : Graph} (hwf : g.WellFormed) (r : Registry)
    (region : Bytes) (cursor : Nat) :
    let importer := (Importer.readHeader { registry := r } region).2
    let (tree, importer, intake) := importer.readTree region ⟨g, cursor⟩
    g.Grafted intake.graph ∧ ∀ index, tree = .ok index → ∀ start,
      g.Grafted (importer.readPaths index.offsets start region intake).2.2.graph := by
  intro importer
  have hself : g.Grafted (Intake.mk g cursor).graph := hwf.grafted_self
  obtain ⟨htree, hknown⟩ := importer.leaves_intaking .readingHeader .readingTree
    (m := fun bytes => TreeIndex.readTasks importer.registry bytes
      [{ offset := 0, parent := none }] {}) hself
    (TreeIndex.leaves_readTasks importer.registry region (Intake.grafting_start hwf cursor))
  refine ⟨htree, fun index hindex start => ?_⟩
  exact (Importer.leaves_intaking _ .readingTree .readingEdges htree
    (TreeIndex.leaves_intakePaths _ _ htree (hknown index hindex) start)).1

/-- What a run on a region comes to. -/
theorem exists_tree_of_run {r : Registry} {region : Bytes} {cursor cursor' : Nat} {g : Graph}
    (h : Importer.run { registry := r } region cursor = (.ok g, cursor')) :
    ∃ index importer intake,
      (Importer.readHeader { registry := r } region).2.readTree region ⟨.empty, cursor⟩ =
        (.ok index, importer, intake) ∧
      g.WellFormed ∧ g.roots = [0] ∧ g.size = index.offsets.size ∧
      g.subtree 0 = List.range index.offsets.size ∧
      g.livePaths = Bytes.ofLittleEndian (region.slice index.stop wordSize) := by
  obtain ⟨hroom, index, intake, count, htree, hpaths⟩ := Importer.run_eq_ok.1 h
  have hphases : (Importer.readHeader { registry := r } region).2.readTree region ⟨.empty, cursor⟩ =
      (.ok index, { registry := r, phase := .readingTree }, intake) := by
    simp only [Importer.readHeader, Importer.readTree, Importer.intaking, Importer.enter, if_true,
      if_neg hroom, htree]
  have hread := TreeIndex.leaves_readTasks r region
    (Intake.grafting_start WellFormed.empty cursor)
  rw [htree] at hread
  have hgrafted := TreeIndex.leaves_intakePaths r region hread.1 hread.2 index.stop
  rw [hpaths] at hgrafted
  have hwf : g.WellFormed := hgrafted.1.toWellFormed
  have hjoined := TreeIndex.joinedBy_intakePaths hpaths
  obtain ⟨hgrown, hcount⟩ := TreeIndex.grown_readTasks htree
  have hsize : intake.graph.size = index.offsets.size := (Nat.zero_add _).symm.trans hcount.symm
  obtain ⟨tops, htops, hvisits⟩ := TreeIndex.visits_readTasks htree (by simp) hread.1.toForest
  obtain ⟨top, rfl⟩ : ∃ top, tops = [top] := by
    have hlength := congrArg List.length htops
    rw [List.length_map, List.length_map] at hlength
    exact List.length_eq_one_iff.1 hlength
  have hforest : g.Forest := hwf.toForest
  have hall : g.Visits [top] (List.range index.offsets.size) := by
    rw [List.range_eq_range', ← hsize]
    exact hvisits.congr hjoined.children_eq
  have hsame : g.size = index.offsets.size := hjoined.size_eq.trans hsize
  have hne : index.offsets.size ≠ 0 := by
    intro hzero
    rw [hzero] at hall
    cases hall
  obtain rfl : 0 = top := by
    obtain ⟨n, hn⟩ := Nat.exists_eq_succ_of_ne_zero hne
    have hhead := hall.head?_eq
    rw [hn, List.range_succ_eq_map] at hhead
    exact Option.some.inj hhead
  have hnew : g.size ≠ 0 := by
    rw [hsame]
    exact hne
  have hroots : g.roots = [] ++ if g.size = 0 then [] else [0] := hgrafted.1.roots_eq
  rw [if_neg hnew] at hroots
  have hroot : 0 < g.size := Nat.pos_of_ne_zero hnew
  refine ⟨index, _, intake, hphases, hwf, hroots, hsame, hforest.subtree_eq hall hroot, ?_⟩
  have hlive := hjoined.livePaths_eq
  rw [hgrown.livePaths_eq] at hlive
  exact hlive.trans (Nat.zero_add _)

/-- **Grafting**: the phases of an import, run on any well-formed graph and any bytes, leave a
well-formed graph that is the former one with what was read beside it, whether they succeed or fail.
An import that succeeds answers with a graph of one root, whose components are numbered in the order of
its subtree, one for each offset that was read, and whose paths are as many as the word in front of them
says. -/
theorem grafted_of_import :
    (∀ (r : Registry) (region : Bytes) (g : Graph) (cursor : Nat), g.WellFormed →
      let importer := (Importer.readHeader { registry := r } region).2
      let (tree, importer, intake) := importer.readTree region ⟨g, cursor⟩
      g.Grafted intake.graph ∧ ∀ index, tree = .ok index → ∀ start,
        g.Grafted (importer.readPaths index.offsets start region intake).2.2.graph) ∧
    ∀ (path : String) (custom : Table) (t : FileTree) (g : Graph),
      importFrom path custom t = .ok g →
      ∃ region index importer intake, t.read? path = some (Region.fileOf region) ∧
        (Importer.readHeader { registry := { custom } } region).2.readTree region ⟨.empty, 0⟩ =
          (.ok index, importer, intake) ∧
        g.WellFormed ∧ g.roots = [0] ∧ g.size = index.offsets.size ∧
        g.subtree 0 = List.range index.offsets.size ∧
        g.livePaths = Bytes.ofLittleEndian (region.slice index.stop wordSize) := by
  refine ⟨fun r region g cursor hwf => hwf.grafted_of_phases r region cursor, ?_⟩
  intro path custom t g h
  obtain ⟨region, hregion, hlen⟩ := exists_fileOf_of_importFrom h
  rw [importFrom_of_fileOf hregion hlen] at h
  obtain ⟨index, importer, intake, hrest⟩ := exists_tree_of_run (Prod.ext h rfl)
  exact ⟨region, index, importer, intake, hregion, hrest⟩

/-- Beside a node a component is read that lists itself for its child.  Reading fails there, and what was
read before stands beside the node.  The same node comes from a file. -/
theorem grafted_of_import_node :
    let g := Graph.empty.edits [.addComponent none { id := 0, details := .node }]
    let region : Bytes := Bytes.zeros 12 ++ Word.toBytes (37 : UInt64) ++ Word.toBytes (1 : UInt64) ++
      Bytes.zeros 17
    (g.WellFormed ∧
      let (tree, _, intake) := (Importer.readHeader {} region).2.readTree region ⟨g, 0⟩
      tree = .error (.malformed 0 .referencedTwice) ∧ intake.graph.size = 2 ∧
        g.Grafted intake.graph) ∧
    ∃ publication t g', g.exportTo "node" 0 ∅ {} = (.ok publication, t) ∧
      importFrom "node" ∅ t = .ok g' ∧ g'.WellFormed ∧ g'.roots = [0] := by
  intro g region
  have hwf : g.WellFormed := WellFormed.empty.edits _
  -- the bytes are those of a component at offset zero whose child is there as well
  let block : Block :=
    { id := 0, attributes := {}
      member := { id := 0, details := .generic, parent := none, children := [0] } }
  let place : ComponentId → Nat := fun _ => 0
  have hstored : region = block.stored place 0 := by decide +kernel
  have hreadable : block.Readable { Graph.empty with members := #[block.member] } {} :=
    ⟨rfl, by unfold NulFree; decide, by simp [NulFree, block], by simp [Registry.Unpackable, block]⟩
  have hholds : region.Holds (place block.id) (block.stored place (place block.id)) :=
    ⟨[], [], by rw [hstored, List.append_nil, List.nil_append], rfl⟩
  obtain ⟨cursor, hread⟩ :=
    ReadMember.readAt_eq (by decide) hreadable hholds (fun _ _ => by decide) 0
  have hadded : (g.addComponent none (block.decoded {})).1 = .ok 1 := rfl
  have htasks : TreeIndex.readTasks {} region [{ offset := 0, parent := none }] {} ⟨g, 0⟩ =
      .error (.malformed 0 .referencedTwice) ⟨(g.addComponent none (block.decoded {})).2, cursor⟩ := by
    rw [TreeIndex.readTasks_cons rfl hread (Prod.ext hadded rfl)]
    show TreeIndex.readTasks {} region [{ offset := 0, parent := some 1 }] _ _ = _
    rw [TreeIndex.readTasks, dif_pos (by rfl)]
    rfl
  have hgrafted := (grafted_of_import.1 {} region g 0 hwf).1
  have hroom : ¬ region.length < Component.minSize := by decide
  simp only [Importer.readHeader, Importer.readTree, Importer.intaking, Importer.enter, if_true,
    if_neg hroom, htasks] at hgrafted ⊢
  refine ⟨⟨hwf, trivial, rfl, hgrafted⟩, ?_⟩
  obtain ⟨publication, t, hexport⟩ := exists_exportTo_node "node" {} rfl rfl
    (FileTree.writableAt_of_vacant (show _ = some ["node.partial"] from rfl) rfl) rfl
    (show _ = some ["node"] from rfl) (by decide)
  have himport := hwf.importFrom_of_exportTo Table.pure_empty Table.decodes_empty hexport
  obtain ⟨-, -, -, -, -, -, hwf', hroots, -⟩ := grafted_of_import.2 "node" ∅ t _ himport
  exact ⟨publication, t, _, hexport, himport, hwf', hroots⟩

end Graph

end HardwareMap
