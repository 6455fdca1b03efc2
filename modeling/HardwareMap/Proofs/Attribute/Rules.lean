import HardwareMap.Proofs.Layout.Reading

/-!
# Rules decode what they encode

Every rule of the catalog decodes its own payloads to the value that was encoded
(`Catalog.faithful`).  So whatever a registry packs it can unpack again, provided that the rules of
the caller decode their own payloads too (`Registry.unpackable_packAll`).
-/

namespace HardwareMap

namespace Rule

/-- A payload decodes to the value that it was encoded from. -/
def Faithful (rule : Rule) : Prop :=
  ∀ calls value payload, rule.encode calls value = some payload → rule.decode payload = some value

/-- A payload that was encoded decodes to some value. -/
def Decodes (rule : Rule) : Prop :=
  ∀ calls value payload, rule.encode calls value = some payload → (rule.decode payload).isSome

theorem Faithful.decodes {rule : Rule} (h : rule.Faithful) : rule.Decodes := by
  intro calls value payload hencode
  rw [h calls value payload hencode]
  rfl

theorem faithful_word {α : Type} [Word α] {get? : Value → Option α} {ofWord : α → Value}
    (h : ∀ value a, get? value = some a → ofWord a = value) : (word get? ofWord).Faithful := by
  intro calls value payload hencode
  obtain ⟨a, ha, rfl⟩ := Option.map_eq_some_iff.1 hencode
  simp only [word, ofPure]
  rw [if_pos (Word.length_toBytes a), Word.ofBytes_toBytes, h value a ha]

theorem unterminate_of_terminate {t : String} {payload : Bytes}
    (h : terminate t = some payload) : unterminate payload = some t := by
  unfold terminate at h
  cases hnul : Utf8.hasNul t with
  | true => rw [hnul] at h; cases h
  | false =>
    rw [hnul] at h
    obtain rfl : Utf8.encode t ++ [0] = payload := Option.some.inj h
    have hno : (Utf8.encode t).contains 0 = false := hnul
    unfold unterminate
    rw [List.getLast?_concat, List.dropLast_concat, hno, if_pos (by simp), Utf8.decode?_encode]

theorem faithful_string : string.Faithful := by
  intro calls value payload hencode
  obtain ⟨t, ht, hterm⟩ := Option.bind_eq_some_iff.1 hencode
  have hvalue : value = .text t := by
    cases value <;> cases ht
    rfl
  simp only [string, ofPure, unterminate_of_terminate hterm, hvalue, Option.map_some]

theorem samplesToBytes_cons (stamp : Int64) (sample : Binary64)
    (rest : List (Int64 × Binary64)) :
    samplesToBytes ((stamp, sample) :: rest) =
      Word.toBytes stamp ++ (Word.toBytes sample ++ samplesToBytes rest) := by
  rw [samplesToBytes, List.flatMap_cons, ← samplesToBytes, List.append_assoc]

theorem length_samplesToBytes (samples : List (Int64 × Binary64)) :
    (samplesToBytes samples).length = sampleWidth * samples.length := by
  induction samples with
  | nil => rfl
  | cons entry rest ih =>
    rw [samplesToBytes_cons, List.length_append, List.length_append, ih, Word.length_toBytes,
      Word.length_toBytes, List.length_cons, Nat.mul_succ, ← Nat.add_assoc, Nat.add_comm]
    rfl

theorem samplesOfBytes_eq {samples : List (Int64 × Binary64)} {count : Nat} {bytes : Bytes}
    (hcount : count = samples.length) (hbytes : bytes = samplesToBytes samples)
    (h : bytes.length = sampleWidth * count) : samplesOfBytes count bytes h = samples := by
  subst hcount hbytes
  induction samples with
  | nil => rfl
  | cons entry rest ih =>
    obtain ⟨stamp, sample⟩ := entry
    have hstamp : (Word.toBytes stamp).length = 8 := Word.length_toBytes stamp
    have hsample : (Word.toBytes sample).length = 8 := Word.length_toBytes sample
    have hchunk : (Word.toBytes stamp ++ Word.toBytes sample).length = sampleWidth := by
      rw [List.length_append, hstamp, hsample]
      rfl
    have hcut (hle : sampleWidth ≤ (samplesToBytes ((stamp, sample) :: rest)).length) :
        (samplesToBytes ((stamp, sample) :: rest)).cutAt sampleWidth hle =
          (Word.toBytes stamp ++ Word.toBytes sample, samplesToBytes rest) := by
      rw [Bytes.cutAt, samplesToBytes_cons, ← List.append_assoc, List.take_left' hchunk,
        List.drop_left' hchunk]
    simp only [List.length_cons, samplesOfBytes, hcut, ih, Bytes.cutAt_append hstamp,
      Word.ofBytes_toBytes]

theorem faithful_pairList : pairList.Faithful := by
  intro calls value payload hencode
  obtain ⟨samples, hsamples, rfl⟩ := Option.map_eq_some_iff.1 hencode
  have hvalue : value = .pairs samples := by
    cases value <;> cases hsamples
    rfl
  have hwidth : 0 < sampleWidth := by decide
  have hlen := length_samplesToBytes samples
  have hmod : (samplesToBytes samples).length % sampleWidth = 0 := by
    rw [hlen, Nat.mul_mod_right]
  have hcount : (samplesToBytes samples).length / sampleWidth = samples.length := by
    rw [hlen, Nat.mul_div_cancel_left _ hwidth]
  simp only [pairList, ofPure]
  rw [dif_pos hmod, samplesOfBytes_eq hcount rfl, hvalue]

theorem faithful_tagged : tagged.Faithful := by
  intro calls value payload hencode
  cases value with
  | tagged number label =>
    obtain ⟨text, hterm, rfl⟩ := Option.map_eq_some_iff.1 hencode
    have hnumber : (Word.toBytes number).length = 8 := Word.length_toBytes number
    have htext : 0 < text.length := by
      unfold terminate at hterm
      split at hterm
      · cases hterm
      · obtain rfl := Option.some.inj hterm
        simp
    have hlong : ¬ (Word.toBytes number ++ text).length < 9 := by
      rw [List.length_append, hnumber]
      omega
    simp only [tagged, ofPure]
    rw [dif_neg hlong, Bytes.cutAt_append hnumber, unterminate_of_terminate hterm,
      Word.ofBytes_toBytes, Option.map_some]
  | u64 | i64 | i32 | f64 | f32 | text | pairs | bytes | foreign => cases hencode

end Rule

theorem Catalog.faithful {name : String} {rule : Rule} (h : Catalog.table.get? name = some rule) :
    rule.Faithful := by
  have hmem : (name, rule) ∈ Catalog.rules := by
    rcases SortedMap.mem_insertAll (SortedMap.mem_of_get? h) with hrule | hempty
    · exact hrule
    · cases hempty
  have hword : ∀ {α : Type} [Word α] {get? : Value → Option α} {ofWord : α → Value},
      (∀ value a, get? value = some a → ofWord a = value) → (Rule.word get? ofWord).Faithful :=
    Rule.faithful_word
  have hu64 : Rule.u64.Faithful := hword fun value a ha => by cases value <;> cases ha; rfl
  have hi64 : Rule.i64.Faithful := hword fun value a ha => by cases value <;> cases ha; rfl
  have hi32 : Rule.i32.Faithful := hword fun value a ha => by cases value <;> cases ha; rfl
  have hf64 : Rule.f64.Faithful := hword fun value a ha => by cases value <;> cases ha; rfl
  have hf32 : Rule.f32.Faithful := hword fun value a ha => by cases value <;> cases ha; rfl
  have hall : ∀ entry ∈ Catalog.rules, entry.2.Faithful := by
    simp only [Catalog.rules, List.forall_mem_cons, List.not_mem_nil, false_imp_iff,
      implies_true, and_true]
    exact ⟨hu64, hu64, hi64, hi32, hi32, hi32, hi32, hf64, hf32, hf32, hf32, Rule.faithful_string,
      Rule.faithful_string, Rule.faithful_pairList, Rule.faithful_tagged⟩
  exact hall (name, rule) hmem

/-- A table whose rules decode their own payloads. -/
def Table.Decodes (t : Table) : Prop := ∀ name rule, t.get? name = some rule → rule.Decodes

theorem Table.decodes_empty : Table.Decodes ∅ := fun _ _ h => by cases h

namespace Registry

/-- A payload comes from one of the name's rules. -/
theorem exists_rule_of_pack {r : Registry} {name : String} {value : Value} {calls : CallLog}
    {payload : Bytes} (h : (r.pack name value calls).1 = some payload) :
    ∃ rule ∈ r.rules name, ∃ earlier, rule.encode earlier value = some payload := by
  unfold pack at h
  by_cases hnul : Utf8.hasNul name = true
  · rw [if_pos hnul] at h
    cases h
  · rw [if_neg hnul] at h
    cases hcatalog : (Catalog.table.get? name).bind (·.encode 0 value) with
    | some found =>
      simp only [hcatalog] at h
      obtain ⟨rule, hrule, hencode⟩ := Option.bind_eq_some_iff.1 hcatalog
      refine ⟨rule, ?_, 0, hencode.trans h⟩
      rw [rules, hrule]
      exact List.mem_append_left _ (List.mem_singleton.2 rfl)
    | none =>
      simp only [hcatalog] at h
      cases hcustom : r.custom.get? name with
      | none => simp only [hcustom] at h; cases h
      | some rule =>
        simp only [hcustom] at h
        refine ⟨rule, ?_, _, h⟩
        rw [rules, hcustom]
        exact List.mem_append_right _ (List.mem_singleton.2 rfl)

theorem decodes_of_mem_rules {r : Registry} (h : r.custom.Decodes) {name : String} {rule : Rule}
    (hrule : rule ∈ r.rules name) : rule.Decodes := by
  rcases List.mem_append.1 hrule with hcatalog | hcustom
  · exact (Catalog.faithful (Option.mem_toList.1 hcatalog)).decodes
  · exact h name rule (Option.mem_toList.1 hcustom)

/-- What one rule of a name encoded, some rule of the name decodes. -/
theorem unpack?_isSome {r : Registry} (h : r.custom.Decodes) {name : String} {value : Value}
    {calls : CallLog} {payload : Bytes} (hpack : (r.pack name value calls).1 = some payload) :
    (r.unpack? name payload).isSome := by
  obtain ⟨rule, hrule, earlier, hencode⟩ := exists_rule_of_pack hpack
  have hdecode := decodes_of_mem_rules h hrule earlier value payload hencode
  unfold unpack?
  cases hrules : r.rules name with
  | nil => rfl
  | cons first rest =>
    rw [hrules] at hrule
    exact List.findSome?_isSome_iff.2 ⟨rule, hrule, hdecode⟩

theorem unpackable_packAll {r : Registry} (h : r.custom.Decodes)
    (entries : List (String × Value)) (calls : CallLog) :
    r.Unpackable (r.packAll entries calls).1.packed := by
  induction entries generalizing calls with
  | nil => exact fun record hrecord => by cases hrecord
  | cons entry rest ih =>
    have hrest := ih (r.pack entry.1 entry.2 calls).2
    rw [packAll_cons]
    cases hpack : (r.pack entry.1 entry.2 calls).1 with
    | none => exact hrest
    | some payload =>
      intro record hrecord
      rcases List.mem_cons.1 hrecord with rfl | hmem
      · exact unpack?_isSome h hpack
      · exact hrest record hmem

/-- What the catalog alone packs is packed by one of its rules. -/
theorem exists_rule_of_catalog {name : String} {value : Value} {calls : CallLog} {payload : Bytes}
    (h : (pack {} name value calls).1 = some payload) :
    Utf8.hasNul name = false ∧ ∃ rule, Catalog.table.get? name = some rule ∧
      rule.encode 0 value = some payload := by
  have hname := hasNul_of_pack h
  rw [pack, if_neg (by rw [hname]; simp)] at h
  cases hcatalog : (Catalog.table.get? name).bind (·.encode 0 value) with
  | none =>
    rw [hcatalog] at h
    cases h
  | some found =>
    rw [hcatalog] at h
    obtain ⟨rule, hrule, hencode⟩ := Option.bind_eq_some_iff.1 hcatalog
    exact ⟨hname, rule, hrule, hencode.trans h⟩

/-- What the catalog decodes has that value, whatever the rules of a caller. -/
theorem unpack?_of_catalog {name : String} {rule : Rule} {payload : Bytes} {value : Value}
    (hrule : Catalog.table.get? name = some rule) (hdecode : rule.decode payload = some value)
    (r : Registry) : r.unpack? name payload = some value := by
  have hrules : r.rules name = rule :: (r.custom.get? name).toList := by
    rw [rules, hrule]
    rfl
  rw [unpack?, hrules]
  simp only [List.findSome?_cons, hdecode]

/-- What becomes of a value that is packed and unpacked again. -/
def restore? (r : Registry) (name : String) (value : Value) : Option Value :=
  (r.pack name value ∅).1.bind (r.unpack? name)

/-- A value that the catalog accepts comes back as it was. -/
theorem restore?_of_catalog (r : Registry) {name : String} {rule : Rule} {value : Value}
    {payload : Bytes} (hname : Utf8.hasNul name = false)
    (hrule : Catalog.table.get? name = some rule) (hencode : rule.encode 0 value = some payload) :
    r.restore? name value = some value := by
  have hpack : (r.pack name value ∅).1 = some payload := by
    rw [pack, hname, hrule, Option.bind_some, hencode]
    rfl
  rw [restore?, hpack, Option.bind_some]
  exact unpack?_of_catalog hrule (Catalog.faithful hrule 0 value payload hencode) r

theorem unpackAll_packAll {r : Registry} (h : r.custom.Pure) (entries : List (String × Value))
    (calls : CallLog) :
    r.unpackAll (r.packAll entries calls).1.packed =
      entries.filterMap fun entry => (r.restore? entry.1 entry.2).map (entry.1, ·) := by
  rw [packAll_eq h, packed_eq h, unpackAll, List.filterMap_filterMap]
  refine List.filterMap_congr fun entry _ => ?_
  rw [restore?]
  cases (r.pack entry.1 entry.2 ∅).1 <;> rfl

end Registry

/-- Attributes that were packed and unpacked again: those with a rule that accepts them. -/
def Attributes.restored (a : Attributes) (r : Registry) : Attributes :=
  .ofList (a.entries.filterMap fun entry => (r.restore? entry.1 entry.2).map (entry.1, ·))

end HardwareMap
