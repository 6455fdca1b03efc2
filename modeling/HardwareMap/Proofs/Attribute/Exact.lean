import HardwareMap.Proofs.Attribute.Rules

/-!
# Rules that lose nothing

The two halves of a rule for a type of values are inverse to each other: what a value is encoded to
decodes to this value, bit by bit, and what decodes to a value is what it is encoded to
(`Rule.encode_eq_some_iff`).  The halves are written apart from each other, so both have to agree on
which payloads there are: words of one width, samples without a rest, text with a zero byte behind it
and no other (`Rule.typed`).
-/

namespace HardwareMap

namespace Rule

/-- The halves of a rule are inverse to each other, between the values that fit and the payloads that
are well formed. -/
structure Exact (rule : Rule) (fits : Value → Prop) (wellFormed : Bytes → Prop) : Prop where
  encode_iff : ∀ calls value payload,
    rule.encode calls value = some payload ↔ rule.decode payload = some value
  isSome_encode : ∀ calls value, (rule.encode calls value).isSome ↔ fits value
  isSome_decode : ∀ payload, (rule.decode payload).isSome ↔ wellFormed payload

/-! ## Words -/

theorem exact_word {α : Type} [Word α] {get? : Value → Option α} {ofWord : α → Value}
    (h : ∀ value a, get? value = some a ↔ ofWord a = value) :
    (word get? ofWord).Exact (fun value => ∃ a, value = ofWord a)
      fun payload => payload.length = Word.width α where
  encode_iff calls value payload := by
    refine ⟨faithful_word (fun value a => (h value a).1) calls value payload, fun hdecode => ?_⟩
    obtain ⟨hlen, hvalue⟩ := Option.ite_none_right_eq_some.1 hdecode
    have hget := (h value _).2 (Option.some.inj hvalue)
    simp only [word, ofPure, hget, Option.map_some, Word.toBytes_ofBytes hlen]
  isSome_encode calls value := by
    simp only [word, ofPure, Option.isSome_map, Option.isSome_iff_exists, h]
    exact exists_congr fun _ => eq_comm
  isSome_decode payload := by
    simp only [word, ofPure, Option.isSome_ite]

/-! ## Text -/

/-- Text with a zero byte behind it and none in it. -/
def Terminated (payload : Bytes) : Prop :=
  ∃ body, payload = body ++ [0] ∧ 0 ∉ body ∧ (Utf8.decode? body).isSome

/-- The text that ends with a zero byte is what stands before it. -/
theorem unterminate_eq_some_iff {payload : Bytes} {t : String} :
    unterminate payload = some t ↔
      ∃ body, payload = body ++ [0] ∧ 0 ∉ body ∧ Utf8.decode? body = some t := by
  unfold unterminate
  constructor
  · intro h
    obtain ⟨hend, htext⟩ := Option.ite_none_right_eq_some.1 h
    rw [Bool.and_eq_true, decide_eq_true_eq, Bool.not_eq_true', List.contains_eq_mem,
      decide_eq_false_iff_not] at hend
    exact ⟨payload.dropLast, (List.dropLast_append_getLast? 0 hend.1).symm, hend.2, htext⟩
  · rintro ⟨body, rfl, hfree, htext⟩
    rw [List.getLast?_concat, List.dropLast_concat, List.contains_eq_mem, if_pos (by simpa using hfree)]
    exact htext

theorem terminate_iff_unterminate {t : String} {payload : Bytes} :
    terminate t = some payload ↔ unterminate payload = some t := by
  refine ⟨unterminate_of_terminate, fun h => ?_⟩
  obtain ⟨body, rfl, hfree, htext⟩ := unterminate_eq_some_iff.1 h
  have hencode : Utf8.encode t = body := Utf8.encode_of_decode? htext
  have hnul : Utf8.hasNul t = false := Utf8.hasNul_eq_false_iff.2 (by rwa [hencode])
  rw [terminate, hnul, hencode]
  rfl

theorem isSome_terminate (t : String) : (terminate t).isSome ↔ Utf8.hasNul t = false := by
  cases h : Utf8.hasNul t <;> simp [terminate, h]

theorem isSome_unterminate (payload : Bytes) : (unterminate payload).isSome ↔ Terminated payload := by
  simp only [Option.isSome_iff_exists, unterminate_eq_some_iff, Terminated]
  exact ⟨fun ⟨t, body, heq, hfree, htext⟩ => ⟨body, heq, hfree, t, htext⟩,
    fun ⟨body, heq, hfree, t, htext⟩ => ⟨t, body, heq, hfree, htext⟩⟩

theorem exact_string :
    string.Exact (fun value => ∃ t, value = .text t ∧ Utf8.hasNul t = false) Terminated where
  encode_iff calls value payload := by
    refine ⟨faithful_string calls value payload, fun hdecode => ?_⟩
    obtain ⟨t, ht, rfl⟩ := Option.map_eq_some_iff.1 hdecode
    exact terminate_iff_unterminate.2 ht
  isSome_encode calls value := by
    cases value with
    | text t => simp [string, ofPure, Value.text?, isSome_terminate]
    | _ => simp [string, ofPure, Value.text?]
  isSome_decode payload := by
    rw [← isSome_unterminate]
    simp only [string, ofPure, Option.isSome_map]

/-! ## Samples -/

/-- Bytes that are cut into samples are these samples one after the other. -/
theorem samplesToBytes_samplesOfBytes {count : Nat} {bytes : Bytes}
    (h : bytes.length = sampleWidth * count) :
    samplesToBytes (samplesOfBytes count bytes h) = bytes := by
  induction count generalizing bytes with
  | zero => exact (List.length_eq_zero_iff.1 h).symm
  | succ count ih =>
    have hlen : sampleWidth ≤ bytes.length := by
      rw [h]
      exact Nat.le_mul_of_pos_right _ (Nat.succ_pos count)
    have hfields : 8 ≤ (bytes.cutAt sampleWidth hlen).1.length := by
      rw [Bytes.length_fst_cutAt]
      decide
    have hstamp := Bytes.length_fst_cutAt hfields
    have hsample := Bytes.length_snd_cutAt hfields
    rw [Bytes.length_fst_cutAt] at hsample
    rw [samplesOfBytes, samplesToBytes_cons, ih, Word.toBytes_ofBytes hstamp,
      Word.toBytes_ofBytes hsample, ← List.append_assoc]
    simp only [Bytes.cutAt, List.take_append_drop]

theorem exact_pairList :
    pairList.Exact (fun value => ∃ samples, value = .pairs samples)
      fun payload => sampleWidth ∣ payload.length where
  encode_iff calls value payload := by
    refine ⟨faithful_pairList calls value payload, fun hdecode => ?_⟩
    obtain ⟨hlen, hvalue⟩ := Option.dite_none_right_eq_some.1 hdecode
    obtain rfl := Option.some.inj hvalue
    exact congrArg some (samplesToBytes_samplesOfBytes _)
  isSome_encode calls value := by
    cases value <;> simp [pairList, ofPure, Value.pairs?]
  isSome_decode payload := by
    simp only [pairList, ofPure, Option.isSome_dite, Nat.dvd_iff_mod_eq_zero]

/-! ## Numbers with labels -/

/-- A labelled number is cut behind its number. -/
theorem decode_tagged_eq_some_iff {payload : Bytes} {value : Value} :
    tagged.decode payload = some value ↔ ∃ number label text, payload = Word.toBytes number ++ text ∧
      unterminate text = some label ∧ value = .tagged number label := by
  constructor
  · intro h
    obtain ⟨hlong, hfields⟩ := Option.dite_none_left_eq_some.1 h
    have hword : 8 ≤ payload.length := by omega
    obtain ⟨label, hlabel, rfl⟩ := Option.map_eq_some_iff.1 hfields
    refine ⟨_, label, (payload.cutAt 8 hword).2, ?_, hlabel, rfl⟩
    rw [Word.toBytes_ofBytes (Bytes.length_fst_cutAt hword)]
    exact (List.take_append_drop 8 payload).symm
  · rintro ⟨number, label, text, rfl, hlabel, rfl⟩
    have hencode := terminate_iff_unterminate.2 hlabel
    exact faithful_tagged 0 (.tagged number label) _
      (by simp only [tagged, ofPure, hencode, Option.map_some])

theorem exact_tagged :
    tagged.Exact (fun value => ∃ number label, value = .tagged number label ∧ Utf8.hasNul label = false)
      fun payload => ∃ number text, payload = number ++ text ∧ number.length = 8 ∧ Terminated text where
  encode_iff calls value payload := by
    refine ⟨faithful_tagged calls value payload, fun hdecode => ?_⟩
    obtain ⟨number, label, text, rfl, hlabel, rfl⟩ := decode_tagged_eq_some_iff.1 hdecode
    simp only [tagged, ofPure, terminate_iff_unterminate.2 hlabel, Option.map_some]
  isSome_encode calls value := by
    cases value with
    | tagged number label => simp [tagged, ofPure, isSome_terminate]
    | _ => simp [tagged, ofPure]
  isSome_decode payload := by
    simp only [Option.isSome_iff_exists, decode_tagged_eq_some_iff, ← isSome_unterminate]
    constructor
    · rintro ⟨_, number, label, text, rfl, hlabel, -⟩
      exact ⟨_, text, rfl, Word.length_toBytes number, label, hlabel⟩
    · rintro ⟨number, text, rfl, hlen, label, hlabel⟩
      refine ⟨_, Word.ofBytes number, label, text, ?_, hlabel, rfl⟩
      rw [Word.toBytes_ofBytes hlen]

theorem exact_bytes : bytes.Exact (fun value => ∃ data, value = .bytes data) fun _ => True where
  encode_iff calls value payload := by
    cases value <;> simp [bytes, ofPure, Value.bytes?, eq_comm]
  isSome_encode calls value := by
    cases value <;> simp [bytes, ofPure, Value.bytes?]
  isSome_decode payload := by simp [bytes, ofPure]

/-! ## All of them -/

/-- The rules for the types of values, each with the values that fit it and its well-formed payloads. -/
def typed : List (Rule × (Value → Prop) × (Bytes → Prop)) :=
  [(u64, (∃ n, · = .u64 n), (·.length = 8)),
    (i64, (∃ n, · = .i64 n), (·.length = 8)),
    (i32, (∃ n, · = .i32 n), (·.length = 4)),
    (f64, (∃ x, · = .f64 x), (·.length = 8)),
    (f32, (∃ x, · = .f32 x), (·.length = 4)),
    (string, (∃ t, · = .text t ∧ Utf8.hasNul t = false), Terminated),
    (pairList, (∃ samples, · = .pairs samples), (sampleWidth ∣ ·.length)),
    (tagged, (∃ number label, · = .tagged number label ∧ Utf8.hasNul label = false),
      (∃ number text, · = number ++ text ∧ number.length = 8 ∧ Terminated text)),
    (bytes, (∃ data, · = .bytes data), fun _ => True)]

theorem exact_of_mem_typed {rule : Rule} {fits : Value → Prop} {wellFormed : Bytes → Prop}
    (h : (rule, fits, wellFormed) ∈ typed) : rule.Exact fits wellFormed := by
  have hall : ∀ entry ∈ typed, entry.1.Exact entry.2.1 entry.2.2 := by
    simp only [typed, List.forall_mem_cons, List.not_mem_nil, false_imp_iff, implies_true, and_true]
    refine ⟨exact_word ?_, exact_word ?_, exact_word ?_, exact_word ?_, exact_word ?_, exact_string,
      exact_pairList, exact_tagged, exact_bytes⟩
    all_goals
      intro value a
      cases value <;> simp [Value.u64?, Value.i64?, Value.i32?, Value.f64?, Value.f32?, eq_comm]
  exact hall _ h

/-- **Rules for the types of values are exact bijections**: a value is encoded to a payload if and only
if the payload decodes to the value, where floating point values are told apart by their bits.  The
rule accepts just the values that fit it and the payloads that are well formed.  So different payloads
never decode to the same value, and a value that is refused is never decoded. -/
theorem encode_eq_some_iff {rule : Rule} {fits : Value → Prop} {wellFormed : Bytes → Prop}
    (h : (rule, fits, wellFormed) ∈ typed) (calls : Nat) (value : Value) (payload : Bytes) :
    (rule.encode calls value = some payload ↔ rule.decode payload = some value) ∧
      ((rule.encode calls value).isSome ↔ fits value) ∧
      ((rule.decode payload).isSome ↔ wellFormed payload) ∧
      (rule.decode payload = some value →
        ∀ other, rule.decode other = some value → other = payload) ∧
      (rule.encode calls value = none → rule.decode payload ≠ some value) := by
  have hexact := exact_of_mem_typed h
  have hiff := hexact.encode_iff calls value
  refine ⟨hiff payload, hexact.isSome_encode calls value, hexact.isSome_decode payload, ?_, ?_⟩
  · intro hdecode other hother
    have hsame := (hiff other).2 hother
    rw [(hiff payload).2 hdecode] at hsame
    exact (Option.some.inj hsame).symm
  · intro hnone hdecode
    rw [(hiff payload).2 hdecode] at hnone
    cases hnone

/-- A NaN with a payload of its own and a label. -/
theorem encode_eq_some_iff_nan :
    let value : Value := .tagged ⟨0x7ff8000000000001⟩ "GHz"
    let payload : Bytes := [1, 0, 0, 0, 0, 0, 0xf8, 0x7f, 71, 72, 122, 0]
    tagged.encode 0 value = some payload ∧ tagged.decode payload = some value ∧
      ∀ other, tagged.decode other = some value → other = payload := by
  intro value payload
  have hmem : (tagged, _, _) ∈ typed := List.mem_of_getElem? (i := 7) rfl
  obtain ⟨hiff, -, -, hunique, -⟩ := encode_eq_some_iff hmem 0 value payload
  have hencode : tagged.encode 0 value = some payload := by decide +kernel
  exact ⟨hencode, hiff.1 hencode, hunique (hiff.1 hencode)⟩

end Rule

end HardwareMap
