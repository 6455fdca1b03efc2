import HardwareMap.Proofs.Import.Extension
import HardwareMap.Proofs.Import.RoundTrip

/-!
# Files that are longer or shorter than they were

A file that goes on is imported as the same graph.  So a file that was cut is imported as the same
graph or not at all: if it is accepted, the whole file goes on behind it.

An exported file is read to the end of its paths, so no shorter one is accepted
(`Importer.cut_ne_ok`).  The rules of the reader need not be those of the writer.  They may even refuse
payloads of the file; but a reader that refuses less reads the same from the cut file, and the reader
that refuses nothing (`Registry.tolerant`) would come to the end of the paths.
-/

namespace HardwareMap

/-! ## Rules that refuse nothing -/

theorem SortedMap.get?_insertAll_map {κ β : Type} [Ord κ] [Std.TransOrd κ] [Std.LawfulEqOrd κ]
    [DecidableEq κ] (f : κ → β) (keys : List κ) (m : SortedMap κ β) (key : κ) :
    (m.insertAll (keys.map fun k => (k, f k))).get? key =
      if key ∈ keys then some (f key) else m.get? key := by
  induction keys generalizing m with
  | nil => rfl
  | cons first rest ih =>
    have hinsert := ih (m.insert first (f first))
    rw [List.map_cons]
    refine hinsert.trans ?_
    rw [get?_insert]
    by_cases hrest : key ∈ rest
    · rw [if_pos hrest, if_pos (List.mem_cons_of_mem _ hrest)]
    · by_cases hfirst : first = key
      · subst hfirst
        rw [if_neg hrest, if_pos rfl, if_pos List.mem_cons_self]
      · have hnot : key ∉ first :: rest := by simp [Ne.symm hfirst, hrest]
        rw [if_neg hrest, if_neg hfirst, if_neg hnot]

namespace Registry

/-- Decodes every payload of a name: to its value if there is one, and to its bytes otherwise. -/
def tolerantRule (r : Registry) (name : String) : Rule where
  encode _ _ := none
  decode payload := some ((r.unpack? name payload).getD (.bytes payload))

/-- The rules of a registry, with tolerant ones for some names. -/
def tolerant (r : Registry) (names : List String) : Registry where
  custom := r.custom.insertAll (names.map fun name => (name, r.tolerantRule name))

variable {r : Registry} {names : List String} {name : String}

theorem unpack?_tolerant (hname : name ∈ names) (payload : Bytes) :
    (r.tolerant names).unpack? name payload =
      some ((r.unpack? name payload).getD (.bytes payload)) := by
  have hcustom : (r.tolerant names).custom.get? name = some (r.tolerantRule name) := by
    rw [tolerant, SortedMap.get?_insertAll_map, if_pos hname]
  cases hcatalog : Catalog.table.get? name with
  | none =>
    have hrules : (r.tolerant names).rules name = [r.tolerantRule name] := by
      rw [rules, hcatalog, hcustom]
      rfl
    rw [unpack?, hrules]
    rfl
  | some rule =>
    have hrules : (r.tolerant names).rules name = [rule, r.tolerantRule name] := by
      rw [rules, hcatalog, hcustom]
      rfl
    have hold : r.rules name = rule :: (r.custom.get? name).toList := by
      rw [rules, hcatalog]
      rfl
    rw [unpack?, hrules]
    cases hdecode : rule.decode payload with
    | some value =>
      -- Whatever the catalog decodes, it decodes before any rule of the caller is asked.
      have hvalue : r.unpack? name payload = some value := by
        rw [unpack?, hold]
        simp only [List.findSome?_cons, hdecode]
      simp only [List.findSome?_cons, hdecode, hvalue, Option.getD_some]
    | none => simp only [List.findSome?_cons, hdecode, tolerantRule]

theorem tolerant_extends (r : Registry) (names : List String) : (r.tolerant names).Extends r := by
  intro name payload value hvalue
  by_cases hname : name ∈ names
  · rw [unpack?_tolerant hname, hvalue, Option.getD_some]
  · have hrules : (r.tolerant names).rules name = r.rules name := by
      rw [rules, rules, tolerant, SortedMap.get?_insertAll_map, if_neg hname]
    rw [unpack?, hrules]
    exact hvalue

end Registry

/-! ## Exported regions that were cut -/

/-- The names of all attributes that a topology stores. -/
def StoredTopology.names (s : StoredTopology) : List String :=
  s.blocks.flatMap (fun b => b.attributes.packed.map (·.1)) ++
    s.paths.flatMap fun b => b.attributes.packed.map (·.1)

theorem StoredTopology.unpackable_tolerant (s : StoredTopology) (r : Registry) :
    s.Unpackable (r.tolerant s.names) where
  blocks b hb record hrecord := by
    have hname : record.1 ∈ s.names := List.mem_append_left _
      (List.mem_flatMap.2 ⟨b, hb, List.mem_map_of_mem hrecord⟩)
    rw [Registry.unpack?_tolerant hname]
    rfl
  paths b hb record hrecord := by
    have hname : record.1 ∈ s.names := List.mem_append_right _
      (List.mem_flatMap.2 ⟨b, hb, List.mem_map_of_mem hrecord⟩)
    rw [Registry.unpack?_tolerant hname]
    rfl

/-- No proper beginning of a stored topology is accepted, whatever the rules of the reader. -/
theorem Importer.cut_ne_ok {g : Graph} (hwf : g.WellFormed) {r : Registry} {root : ComponentId}
    (hroot : root < g.size) {calls : CallLog} :
    let s := g.storedTopology r root 0 calls
    Block.Storable s.blocks → s.stored.length < UInt64.size → ∀ len, len < s.stored.length →
      ∀ (r' : Registry) (cursor : Nat) (g' : Graph),
        (run { registry := r' } (s.stored.take len) cursor).1 ≠ .ok g' := by
  intro s hstorable hlen len hcut r' cursor g' hok
  rcases hrun : run { registry := r' } (s.stored.take len) cursor with ⟨answer, cursor'⟩
  rw [hrun] at hok
  obtain rfl : answer = .ok g' := hok
  have hshort : (s.stored.take len).length = len := List.length_take_of_le (Nat.le_of_lt hcut)
  have hinside := cursor_le_of_run (by omega) hrun
  have hwhole := run_append (r'.tolerant_extends s.names) hrun (s.stored.drop len)
  rw [List.take_append_drop] at hwhole
  obtain ⟨-, -, graph', hend, -, -⟩ := run_eq_rebuilt hwf hroot hlen
    (s.unpackable_tolerant r') hstorable ⟨[], [], (List.append_nil _).symm, rfl⟩ cursor
  have hstop : cursor' = s.stored.length := congrArg Prod.snd (hwhole.symm.trans hend)
  omega

/-! ## Files -/

namespace Region

/-- A file with its first word overwritten by its length, as far as the file goes. -/
def corrected (file : Bytes) : Bytes :=
  (file.splice 0 (Word.toBytes (UInt64.ofNat file.length))).take file.length

theorem corrected_eq {file : Bytes} (h : headerSize ≤ file.length) :
    corrected file = fileOf (file.drop headerSize) := by
  have hword : (Word.toBytes (UInt64.ofNat file.length)).length = headerSize :=
    Word.length_toBytes _
  have hlen : headerSize + (file.drop headerSize).length = file.length := by
    rw [List.length_drop]
    exact Nat.add_sub_cancel' h
  rw [corrected, Bytes.splice_eq, List.take_zero, List.nil_append, Nat.zero_add, hword, fileOf,
    hlen]
  refine List.take_of_length_le ?_
  rw [List.length_append, hword, hlen]

theorem length_corrected_le (file : Bytes) : (corrected file).length ≤ file.length :=
  List.length_take_le _ _

end Region

namespace Graph

variable {path : String} {custom : Table} {t : FileTree} {g : Graph}

/-- A corrected file is too short for a header, or it is a header and what stood behind one. -/
theorem importFrom_of_corrected (custom : Table) {file : Bytes}
    (h : t.read? path = some (Region.corrected file)) (hlen : file.length < UInt64.size) :
    (file.length < headerSize ∧
        ∃ offset fault, importFrom path custom t = .error (.malformed offset fault)) ∨
      headerSize ≤ file.length ∧ importFrom path custom t =
        (Importer.run { registry := { custom } } (file.drop headerSize) 0).1 := by
  by_cases hshort : file.length < headerSize
  · have hle := Nat.lt_of_le_of_lt (Region.length_corrected_le file) hshort
    exact .inl ⟨hshort, _, _, importFrom_of_length_lt h hle⟩
  · have hheader := Nat.le_of_not_lt hshort
    rw [Region.corrected_eq hheader] at h
    refine .inr ⟨hheader, importFrom_of_fileOf h ?_⟩
    rw [List.length_drop, Nat.add_sub_cancel' hheader]
    exact hlen

/-- A file that goes on is imported as the same graph. -/
theorem importFrom_append {file : Bytes} (hfile : t.read? path = some file)
    (h : importFrom path custom t = .ok g) {extra : Bytes}
    (hlen : (file ++ extra).length < UInt64.size) {path' : String} {t' : FileTree}
    (hlonger : t'.read? path' = some (Region.corrected (file ++ extra))) :
    importFrom path' custom t' = .ok g := by
  obtain ⟨region, hregion, hsize⟩ := exists_fileOf_of_importFrom h
  obtain rfl : file = Region.fileOf region := Option.some.inj (hfile.symm.trans hregion)
  rw [importFrom_of_fileOf hregion hsize] at h
  rcases hrun : Importer.run { registry := { custom } } region 0 with ⟨answer, cursor⟩
  rw [hrun] at h
  obtain rfl : answer = .ok g := h
  have hheader : headerSize ≤ (Region.fileOf region).length := by
    rw [Region.length_fileOf]
    exact Nat.le_add_right _ _
  rcases importFrom_of_corrected custom hlonger hlen with ⟨hshort, -⟩ | ⟨-, hsame⟩
  · rw [List.length_append] at hshort
    omega
  · rw [hsame, List.drop_append_of_le_length hheader, Region.drop_fileOf,
      Importer.run_append (Registry.Extends.refl _) hrun extra]

/-- A file that was cut is imported as the same graph or not at all. -/
theorem importFrom_cut {file : Bytes} (hfile : t.read? path = some file)
    (h : importFrom path custom t = .ok g) {len : Nat} {path' : String} {t' : FileTree}
    (hcut : t'.read? path' = some (Region.corrected (file.take len))) :
    importFrom path' custom t' = .ok g ∨
      ∃ offset fault, importFrom path' custom t' = .error (.malformed offset fault) := by
  obtain ⟨region, hregion, hsize⟩ := exists_fileOf_of_importFrom h
  obtain rfl : file = Region.fileOf region := Option.some.inj (hfile.symm.trans hregion)
  have hle : ((Region.fileOf region).take len).length ≤ (Region.fileOf region).length :=
    List.length_take_le' _ _
  rw [Region.length_fileOf] at hle
  rcases importFrom_of_corrected custom hcut (Nat.lt_of_le_of_lt hle hsize) with
    ⟨-, hfault⟩ | ⟨-, hsame⟩
  · exact .inr hfault
  · rw [List.drop_take, Region.drop_fileOf] at hsame
    have hshort : (region.take (len - headerSize)).length < UInt64.size := by
      have := List.length_take_le' (len - headerSize) region
      omega
    rw [hsame]
    rcases Importer.run_ok_or_malformed { custom } hshort 0 with ⟨g', hok⟩ | hfault
    · rcases hrun : Importer.run { registry := { custom } } (region.take (len - headerSize)) 0 with
        ⟨answer, cursor⟩
      rw [hrun] at hok
      obtain rfl : answer = .ok g' := hok
      -- What is accepted of the file is accepted of all of it.
      have hwhole := Importer.run_append (Registry.Extends.refl _) hrun
        (region.drop (len - headerSize))
      rw [List.take_append_drop] at hwhole
      rw [importFrom_of_fileOf hregion hsize, hwhole] at h
      exact .inl h
    · exact .inr hfault

/-- An exported file is refused if it was cut before the end of what was written. -/
theorem WellFormed.importFrom_cut_of_exportTo (hwf : g.WellFormed) {root : ComponentId}
    {t' : FileTree} {publication : Publication}
    (h : g.exportTo path root custom t = (.ok publication, t')) :
    ∃ file, t'.read? path = some file ∧
      ∀ len, len < headerSize + publication.report.bytesWritten →
        ∀ (path' : String) (custom' : Table) (s : FileTree),
          s.read? path' = some (Region.corrected (file.take len)) →
          ∃ offset fault, importFrom path' custom' s = .error (.malformed offset fault) := by
  obtain ⟨-, hroot, calls, hexported⟩ := hwf.exported_of_exportTo h
  refine ⟨_, hexported.read?_eq, ?_⟩
  intro len hlen path' custom' s hcut
  have hsize := hexported.fileSize_lt_size
  have hstored := hexported.length_le
  have hfile := hexported.length_fileOf
  rw [hexported.bytesWritten_eq] at hlen
  have hshorter := List.length_take_le len (Region.fileOf ((g.storedTopology { custom } root 0
    calls).stored ++ Bytes.zeros (publication.report.estimate.fileSize - headerSize -
      (g.storedTopology { custom } root 0 calls).stored.length)))
  rcases importFrom_of_corrected custom' hcut (by omega) with
    ⟨-, hfault⟩ | ⟨hheader, hsame⟩
  · exact hfault
  · rw [List.length_take] at hheader
    have hinside : len - headerSize < (g.storedTopology { custom } root 0 calls).stored.length := by
      omega
    rw [List.drop_take, Region.drop_fileOf,
      List.take_append_of_le_length (Nat.le_of_lt hinside)] at hsame
    have hshort := List.length_take_le (len - headerSize)
      (g.storedTopology { custom } root 0 calls).stored
    rw [hsame]
    rcases Importer.run_ok_or_malformed { custom := custom' }
      (Nat.lt_of_le_of_lt hshort (by omega)) 0 with ⟨g', hok⟩ | hfault
    · exact absurd hok
        (Importer.cut_ne_ok hwf hroot hexported.storable (by omega) _ hinside _ 0 g')
    · exact hfault

/-- **Extension and truncation**: whatever is appended to a file that is accepted, with its header
corrected it is imported as the same graph; and wherever such a file is cut, with its header corrected
it is imported as the same graph or found malformed.  A file that was exported is found malformed if it
was cut before the end of what was written, whatever the rules of its writer and of its reader. -/
theorem importFrom_corrected :
    (∀ (path : String) (custom : Table) (t : FileTree) (file : Bytes) (g : Graph),
      t.read? path = some file → importFrom path custom t = .ok g →
      ∀ (path' : String) (t' : FileTree),
        (∀ extra, (file ++ extra).length < UInt64.size →
          t'.read? path' = some (Region.corrected (file ++ extra)) →
          importFrom path' custom t' = .ok g) ∧
        (∀ len, t'.read? path' = some (Region.corrected (file.take len)) →
          importFrom path' custom t' = .ok g ∨
            ∃ offset fault, importFrom path' custom t' = .error (.malformed offset fault))) ∧
    ∀ (g : Graph), g.WellFormed → ∀ (path : String) (root : ComponentId) (custom : Table)
      (t t' : FileTree) (publication : Publication),
      g.exportTo path root custom t = (.ok publication, t') →
      ∃ file, t'.read? path = some file ∧
        ∀ len, len < headerSize + publication.report.bytesWritten →
          ∀ (path' : String) (custom' : Table) (s : FileTree),
            s.read? path' = some (Region.corrected (file.take len)) →
            ∃ offset fault, importFrom path' custom' s = .error (.malformed offset fault) := by
  refine ⟨fun path custom t file g hfile h path' t' => ⟨?_, ?_⟩, ?_⟩
  · intro extra hlen hlonger
    exact importFrom_append hfile h hlen hlonger
  · intro len hcut
    exact importFrom_cut hfile h hcut
  · intro g hwf path root custom t t' publication h
    exact hwf.importFrom_cut_of_exportTo h

/-- The file of a single node with two bytes more, and with no more than its first 20 bytes. -/
theorem importFrom_corrected_node :
    let g := Graph.empty.edits [.addComponent none { id := 0, details := .node }]
    let fileAt (bytes : Bytes) : FileTree := (FileTree.addFile {} ["copy"] { bytes }).2
    ∃ publication t file, g.exportTo "node" 0 ∅ {} = (.ok publication, t) ∧
      t.read? "node" = some file ∧ importFrom "node" ∅ t = .ok (g.restrict {} 0) ∧
      importFrom "copy" ∅ (fileAt (Region.corrected (file ++ [1, 2]))) = .ok (g.restrict {} 0) ∧
      ∃ offset fault, importFrom "copy" ∅ (fileAt (Region.corrected (file.take 20))) =
        .error (.malformed offset fault) := by
  intro g fileAt
  have hwf : g.WellFormed := WellFormed.empty.edits _
  have hestimate : Estimate.ofSubtree g { custom := ∅ } 0 = .ofBytes 1 37 8 := rfl
  have htexts : ∀ m ∈ (g.subtree 0).filterMap g.member?, NulFree m.texts := by decide +kernel
  obtain ⟨publication, t, h⟩ := hwf.exists_exportTo_of_estimate Table.pure_empty
    (show 0 < 1 by decide) hestimate (by decide) (by decide) (by decide) htexts
  obtain ⟨-, hroot, calls, hexported⟩ := hwf.exported_of_exportTo h
  have hread := hexported.read?_eq
  have hsize := hexported.length_fileOf.trans_lt hexported.fileSize_lt
  have hcopy (bytes : Bytes) : (fileAt bytes).read? "copy" = some bytes :=
    FileTree.read?_addFile (t := {}) (by rfl) (by simp [FileTree.occupant?, SortedMap.get?]) bytes
  have himport : importFrom "node" ∅ t = .ok (g.restrict {} 0) :=
    hwf.importFrom_of_exportTo Table.pure_empty Table.decodes_empty h
  have hwritten : 37 ≤ publication.report.bytesWritten := by
    rw [hexported.bytesWritten_eq, StoredTopology.length_stored,
      Graph.treeSize_storedTopology Table.pure_empty]
    exact Nat.le_add_right 37 _
  refine ⟨publication, t, _, h, hread, himport, ?_, ?_⟩
  · refine (importFrom_corrected.1 "node" ∅ t _ _ hread himport "copy" _).1 [1, 2] ?_ (hcopy _)
    rw [List.length_append]
    have hmax : Region.maxFileSize + 2 < UInt64.size := by decide
    exact Nat.lt_trans (Nat.add_lt_add_right hsize 2) hmax
  · obtain ⟨file', hread', hcut⟩ := importFrom_corrected.2 g hwf "node" 0 ∅ {} t publication h
    obtain rfl := Option.some.inj (hread.symm.trans hread')
    refine hcut 20 ?_ "copy" ∅ _ (hcopy _)
    exact Nat.lt_of_lt_of_le (show 20 < headerSize + 37 by decide)
      (Nat.add_le_add_left hwritten headerSize)

end Graph

end HardwareMap
