import HardwareMap.Proofs.Region.Mapped
import HardwareMap.Proofs.Region.Staging

/-!
# Where a file is staged

A path consists of parts: a slash or a dot that it starts with, names, and steps to the directory above
(`Path.parts`).  The parts before the last one lead to the directory that the path lies in
(`Path.parent?`), and the last one is the name of the file, if it is a name at all (`Path.fileName?_eq`).

The suffix of a staging path is appended to the text and not to a part.  So a file is staged beside its
target if the text of the path ends in the name of the target.  If a slash, or a slash and a dot, comes
behind that name (`Path.Trails`), the path passes as one that names a file all the same, but the file is
staged in the directory of that name (`RegionConfig.stagedBeside_iff`).
-/

namespace HardwareMap

namespace Path

/-- A part of a path. -/
inductive Part where
  /-- The root of all directories. -/
  | root
  /-- The directory that a path is followed from. -/
  | here
  /-- The directory above. -/
  | above
  | name (name : String)
deriving DecidableEq

def Part.ofName (name : String) : Part := if name = ".." then .above else .name name

/-- What stands before the names.  A dot counts only at the very start of a path. -/
def start (path : String) : List Part :=
  if isAbsolute path then [.root]
  else if (segments path).head? = some "." then [.here]
  else []

/-- The parts of a path.  Slashes in a row count as one, and dots further on do not count. -/
def parts (path : String) : List Part := start path ++ (names path).map .ofName

/-- The parts that lead to the directory that a path lies in; none if it leads to the root of all
directories, or nowhere. -/
def parent? (path : String) : Option (List Part) :=
  match (parts path).getLast? with
  | none | some .root => none
  | some _ => some (parts path).dropLast

/-- The text goes on behind the last name: with a slash, or with a slash and a dot. -/
def Trails (path : String) : Prop := ['/'] <:+ path.toList ∨ ['/', '.'] <:+ path.toList

instance (path : String) : Decidable (Trails path) := inferInstanceAs (Decidable (_ ∨ _))

/-! ## The last part -/

/-- A path whose last part is not the root lies in the directory that the other parts lead to. -/
theorem parent?_eq {path : String} {front : List Part} {last : Part}
    (h : parts path = front ++ [last]) (hlast : last ≠ .root) : parent? path = some front := by
  have hget : (parts path).getLast? = some last := by simp [h]
  have hdrop : (parts path).dropLast = front := by simp [h]
  unfold parent?
  rw [hget, hdrop]
  cases last with
  | root => exact absurd rfl hlast
  | here => rfl
  | above => rfl
  | name name => rfl

/-- The name of the file that a path leads to is its last part. -/
theorem fileName?_eq_some_iff {path name : String} :
    fileName? path = some name ↔ ∃ front, parts path = front ++ [.name name] := by
  rw [← List.getLast?_eq_some_iff, fileName?, parts, List.getLast?_append, List.getLast?_map]
  cases (names path).getLast? with
  | none =>
    have hstart : (start path).getLast? ≠ some (.name name) := by
      unfold start
      split
      · simp
      · split <;> simp
    simpa using hstart
  | some last =>
    by_cases hup : last = ".."
    · simp [Part.ofName, hup]
    · simp [Part.ofName, hup]

/-! ## The end of the text -/

theorem cut_ne_nil (cs : List Char) : cut cs ≠ [] := by
  obtain ⟨names, name, hcut, -⟩ := cut_append cs [] List.not_mem_nil
  simp [hcut]

/-- Behind the last slash of a path comes the last of its segments. -/
theorem cut_append_slash (front : List Char) {tail : List Char} (h : '/' ∉ tail) :
    cut (front ++ '/' :: tail) = cut front ++ [tail] := by
  induction front with
  | nil => simp [cut, cut_of_not_mem h]
  | cons c front ih =>
    rw [List.cons_append, cut, cut, ih]
    by_cases hc : c = '/'
    · rw [if_pos hc, if_pos hc, List.cons_append]
    · rw [if_neg hc, if_neg hc]
      cases hcut : cut front with
      | nil => exact absurd hcut (cut_ne_nil front)
      | cons name names => rfl

/-- A text without slashes is one segment; any other has a last slash. -/
theorem exists_last_slash (cs : List Char) :
    '/' ∉ cs ∨ ∃ front tail, '/' ∉ tail ∧ cs = front ++ '/' :: tail := by
  by_cases hmem : '/' ∈ cs
  · obtain ⟨tail, front, hsplit, htail⟩ := List.eq_append_cons_of_mem (List.mem_reverse.2 hmem)
    refine .inr ⟨front.reverse, tail.reverse, by simpa using htail, ?_⟩
    rw [← List.reverse_reverse cs, hsplit]
    simp
  · exact .inl hmem

theorem suffix_iff (front : List Char) {tail rest : List Char} (htail : '/' ∉ tail)
    (hrest : '/' ∉ rest) : '/' :: rest <:+ front ++ '/' :: tail ↔ tail = rest := by
  constructor
  · rintro ⟨other, heq⟩
    have hcut := congrArg cut heq
    rw [cut_append_slash other hrest, cut_append_slash front htail] at hcut
    obtain ⟨-, hlast⟩ := List.append_inj' hcut rfl
    exact (List.cons.inj hlast).1.symm
  · rintro rfl
    exact ⟨front, rfl⟩

/-- The text goes on behind the last name where the last segment is no name, unless it is all there
is. -/
theorem trails_iff {path name : String} {names : List String}
    (h : segments path = names ++ [name]) :
    Trails path ↔ names ≠ [] ∧ (name = "" ∨ name = ".") := by
  rcases exists_last_slash path.toList with hnone | ⟨front, tail, htail, hpath⟩
  · have hone : names = [] := by
      rw [segments, cut_of_not_mem hnone] at h
      exact ((List.append_eq_singleton_iff.1 h.symm).resolve_right (by simp)).1
    have hno : ∀ rest, ¬ '/' :: rest <:+ path.toList := fun rest hsuffix =>
      hnone (hsuffix.subset List.mem_cons_self)
    simp [Trails, hno, hone]
  · rw [segments, hpath, cut_append_slash front htail, List.map_append] at h
    obtain ⟨hnames, hname⟩ := List.append_inj' h rfl
    have hne : names ≠ [] := by
      rw [← hnames]
      simpa using cut_ne_nil front
    have hofList (rest : List Char) : name = String.ofList rest ↔ tail = rest := by
      rw [← (List.cons.inj hname).1]
      exact ⟨fun heq => String.ofList_injective heq, congrArg String.ofList⟩
    rw [Trails, hpath, suffix_iff front htail List.not_mem_nil, suffix_iff front htail (by decide),
      ← hofList, ← hofList]
    simp [hne]

/-! ## The parts of a staging path -/

theorem staged_ne (name : String) {short : String} (h : short.length ≤ 2) :
    name ++ stagingSuffix ≠ short := by
  intro heq
  have hlen := congrArg String.length heq
  rw [length_staged] at hlen
  omega

theorem ofName_staged (name : String) :
    Part.ofName (name ++ stagingSuffix) = .name (name ++ stagingSuffix) :=
  if_neg (staged_ne name (by decide))

theorem isAbsolute_staging {path : String} (h : path ≠ "") :
    isAbsolute (staging path) = isAbsolute path := by
  have hne : path.toList ≠ [] := by simpa using h
  obtain ⟨c, rest, hpath⟩ := List.exists_cons_of_ne_nil hne
  rw [isAbsolute, isAbsolute, staging, String.toList_append, hpath]
  rfl

/-- A path that names a file has a name among its segments. -/
theorem names_ne_nil {path name : String} (h : fileName? path = some name) : names path ≠ [] := by
  intro hnil
  rw [fileName?, hnil] at h
  cases h

theorem start_staging {path name : String} (h : fileName? path = some name) :
    start (staging path) = start path := by
  have hne : path ≠ "" := by
    rintro rfl
    cases h
  have hdot : (segments (staging path)).head? = some "." ↔ (segments path).head? = some "." := by
    obtain ⟨segs, last, hpath, hstaged⟩ := segments_staging path
    rw [hpath, hstaged]
    cases segs with
    | nil =>
      have hlast : last ≠ "." := by
        rintro rfl
        exact names_ne_nil h (by simp [names, hpath])
      simp [hlast, staged_ne last (show ".".length ≤ 2 by decide)]
    | cons first segs => rfl
  simp only [start, isAbsolute_staging hne, hdot]

/-- The suffix goes to the last part of a path that ends in a name; behind any other it is a part of
its own, alone or with a dot before it. -/
theorem parts_staging {path name : String} (h : fileName? path = some name) :
    (¬ Trails path → ∃ front, parts path = front ++ [.name name] ∧
      parts (staging path) = front ++ [.name (name ++ stagingSuffix)]) ∧
    (Trails path → ∃ rest, (rest = "" ∨ rest = ".") ∧
      parts (staging path) = parts path ++ [.name (rest ++ stagingSuffix)]) := by
  obtain ⟨segs, last, hpath, hstaged⟩ := segments_staging path
  have hkept : names (staging path) =
      segs.filter (fun name => name != "" && name != ".") ++ [last ++ stagingSuffix] := by
    simp [names, hstaged, staged_ne last (show "".length ≤ 2 by decide),
      staged_ne last (show ".".length ≤ 2 by decide)]
  rw [parts, parts, start_staging h, hkept, List.map_append, List.map_singleton, ofName_staged,
    ← List.append_assoc]
  constructor
  · intro htrails
    have hlast : last ≠ "" ∧ last ≠ "." := by
      rw [trails_iff hpath] at htrails
      by_cases hsegs : segs = []
      · constructor
        · rintro rfl
          exact names_ne_nil h (by simp [names, hpath, hsegs])
        · rintro rfl
          exact names_ne_nil h (by simp [names, hpath, hsegs])
      · simpa [hsegs] using htrails
    have hnames : names path = segs.filter (fun name => name != "" && name != ".") ++ [last] := by
      simp [names, hpath, hlast]
    have hname : last = name ∧ last ≠ ".." := by
      rw [fileName?, hnames, List.getLast?_concat] at h
      simpa [and_comm] using h
    refine ⟨_, ?_, by rw [hname.1]⟩
    rw [hnames, List.map_append, List.map_singleton, Part.ofName, if_neg hname.2, hname.1,
      ← List.append_assoc]
  · intro htrails
    obtain ⟨-, hlast⟩ := (trails_iff hpath).1 htrails
    have hnames : names path = segs.filter (fun name => name != "" && name != ".") := by
      rcases hlast with rfl | rfl <;> simp [names, hpath]
    exact ⟨last, hlast, by rw [hnames]⟩

end Path

namespace RegionConfig

/-- The file is written beside its target: in the directory that the target lies in, under the name of
the target with the suffix behind it. -/
structure StagedBeside (config : RegionConfig) : Prop where
  parent_eq : Path.parent? config.writePath = Path.parent? config.path
  fileName_eq : Path.fileName? config.writePath =
    (Path.fileName? config.path).map (· ++ Path.stagingSuffix)

/-- The file is written in the directory that the path of the target itself leads to, and its name is the
suffix, or a dot and the suffix. -/
structure StagedWithin (config : RegionConfig) : Prop where
  parent_eq : Path.parent? config.writePath = some (Path.parts config.path)
  fileName_eq : Path.fileName? config.writePath = some Path.stagingSuffix ∨
    Path.fileName? config.writePath = some ("." ++ Path.stagingSuffix)

/-- **Staging beside the target**: a file that is to be renamed into place is staged beside its target
exactly if the text of its path ends in the name of the target.  Otherwise it is staged in the directory that
the target would have to be. -/
theorem stagedBeside_iff {config : RegionConfig} (hvalid : config.validate = .ok ())
    (hrename : config.publishByRename = true) :
    (config.StagedBeside ↔ ¬ Path.Trails config.path) ∧
      (Path.Trails config.path → config.StagedWithin) := by
  obtain ⟨-, -, hnamed⟩ := validate_eq_ok.1 hvalid
  obtain ⟨name, hname⟩ := Option.isSome_iff_exists.1 (hnamed hrename)
  obtain ⟨front, hfront⟩ := Path.fileName?_eq_some_iff.1 hname
  have hpath : Path.parent? config.path = some front := Path.parent?_eq hfront (by simp)
  obtain ⟨hbeside, hwithin⟩ := Path.parts_staging hname
  have hwrite : config.writePath = Path.staging config.path := if_pos hrename
  have within (htrails : Path.Trails config.path) : config.StagedWithin := by
    obtain ⟨rest, hrest, hparts⟩ := hwithin htrails
    have hstaged : Path.fileName? config.writePath = some (rest ++ Path.stagingSuffix) := by
      rw [hwrite]
      exact Path.fileName?_eq_some_iff.2 ⟨_, hparts⟩
    refine ⟨?_, ?_⟩
    · rw [hwrite]
      exact Path.parent?_eq hparts (by simp)
    · rcases hrest with rfl | rfl
      · exact .inl hstaged
      · exact .inr hstaged
  refine ⟨⟨fun hsibling htrails => ?_, fun htrails => ?_⟩, within⟩
  · -- the directory would have to lie in itself
    have hsame := (within htrails).parent_eq.symm.trans (hsibling.parent_eq.trans hpath)
    have hlen := congrArg List.length (hfront.symm.trans (Option.some.inj hsame))
    simp at hlen
  · obtain ⟨front', hparts, hparts'⟩ := hbeside htrails
    refine ⟨?_, ?_⟩
    · rw [hwrite, Path.parent?_eq hparts (by simp), Path.parent?_eq hparts' (by simp)]
    · rw [hwrite, hname, Path.fileName?_eq_some_iff.2 ⟨_, hparts'⟩]
      rfl

/-- Dots, double slashes and steps up before the name do no harm. -/
theorem stagedBeside_iff_dotted :
    let config : RegionConfig := { path := "./a//.././node", size := 4096 }
    config.validate = .ok () ∧ config.publishByRename = true ∧ config.StagedBeside :=
  ⟨rfl, rfl, (stagedBeside_iff rfl rfl).1.2 (by decide)⟩

/-- A slash at the end is accepted, and then the file is staged in a directory of the name of its
target. -/
theorem staged_within_slash :
    let config : RegionConfig := { path := "dir/", size := 4096 }
    config.validate = .ok () ∧ config.publishByRename = true ∧
      Path.fileName? config.path = some "dir" ∧ config.writePath = "dir/.partial" ∧
      Path.fileName? config.writePath = some ".partial" ∧
      Path.parent? config.path = some [] ∧
      Path.parent? config.writePath = some [.name "dir"] ∧ ¬ config.StagedBeside :=
  ⟨rfl, rfl, rfl, rfl, rfl, rfl, rfl, fun h => absurd h.parent_eq (by decide)⟩

end RegionConfig

end HardwareMap
