import HardwareMap.Proofs.Attribute.Rules

/-!
# Unpacking what was packed

Packing and unpacking try the rules of a name in the same order, the catalog's first and then the
caller's, but they ask different questions: packing takes the first rule that accepts the value,
unpacking the first that accepts the payload.  So the rule that unpacks may be another one than the rule
that packed (`Registry.unpack_of_pack`).  This happens where a caller's rule packs a value that the
catalog refuses, in a payload that the catalog takes for one of its own.
-/

namespace HardwareMap

namespace Registry

variable {r : Registry} {name : String} {payload : Bytes}

/-- The answer about a payload at an offset, given the value that was found for it. -/
def answer (name : String) (payload : Bytes) (offset : Nat) : Option Value → Except Error Value
  | some value => .ok value
  | none => .error (.malformed offset (.undecodable name payload.length))

/-! ## Both tables in turn -/

/-- The caller's rule packs what the catalog does not. -/
theorem pack_eq_or (h : r.custom.Pure) (hname : Utf8.hasNul name = false) (value : Value)
    (calls : CallLog) :
    (r.pack name value calls).1 =
      ((Catalog.table.get? name).bind (·.encode 0 value)).or
        ((r.custom.get? name).bind (·.encode 0 value)) := by
  rw [pack_eq h name value calls ∅, pack, hname]
  cases (Catalog.table.get? name).bind (·.encode 0 value) with
  | some found => rfl
  | none => cases r.custom.get? name <;> rfl

/-- The caller's rule decodes what the catalog's does not. -/
theorem unpack_of_catalogued {rule : Rule} (hrule : Catalog.table.get? name = some rule)
    (offset : Nat) :
    r.unpack name payload offset = answer name payload offset
      ((rule.decode payload).or ((r.custom.get? name).bind (·.decode payload))) := by
  have hrules : r.rules name = rule :: (r.custom.get? name).toList := by
    rw [rules, hrule]
    rfl
  have hfound : (rule :: (r.custom.get? name).toList).findSome? (·.decode payload) =
      (rule.decode payload).or ((r.custom.get? name).bind (·.decode payload)) := by
    rw [List.findSome?_cons]
    cases rule.decode payload with
    | some value => rfl
    | none => cases r.custom.get? name <;> simp
  rw [unpack, hrules]
  simp only [hfound]
  cases (rule.decode payload).or ((r.custom.get? name).bind (·.decode payload)) <;> rfl

theorem unpack_of_uncatalogued (hnone : Catalog.table.get? name = none) {own : Rule}
    (hown : r.custom.get? name = some own) (offset : Nat) :
    r.unpack name payload offset = answer name payload offset (own.decode payload) := by
  have hrules : r.rules name = [own] := by
    rw [rules, hnone, hown]
    rfl
  rw [unpack, hrules]
  simp only [List.findSome?_cons, List.findSome?_nil]
  cases own.decode payload <;> rfl

/-- What the catalog does not pack is packed by the caller's rule. -/
theorem exists_own_of_pack (h : r.custom.Pure) {value : Value} {calls : CallLog}
    (hpack : (r.pack name value calls).1 = some payload)
    (hrefused : (Catalog.table.get? name).bind (·.encode 0 value) = none) :
    ∃ own, r.custom.get? name = some own ∧ own.encode 0 value = some payload := by
  rw [pack_eq_or h (hasNul_of_pack hpack), hrefused, Option.none_or] at hpack
  exact Option.bind_eq_some_iff.1 hpack

/-! ## What is left out -/

theorem pack_eq_none_iff (h : r.custom.Pure) (value : Value) (calls : CallLog) :
    (r.pack name value calls).1 = none ↔ Utf8.hasNul name = true ∨
      (∀ rule, Catalog.table.get? name = some rule → rule.encode 0 value = none) ∧
        ∀ own, r.custom.get? name = some own → own.encode 0 value = none := by
  cases hname : Utf8.hasNul name with
  | true =>
    rw [pack, if_pos hname]
    simp
  | false =>
    rw [pack_eq_or h hname, Option.or_eq_none_iff, Option.bind_eq_none_iff, Option.bind_eq_none_iff]
    simp

/-- A record takes the bytes that are counted for it. -/
theorem exists_writeRecord {value : Value} {calls : CallLog}
    (hpack : (r.pack name value calls).1 = some payload) :
    ∃ size, (r.recordSize? name value calls).1 = some size ∧
      ∀ w : Window, w.Writable → size ≤ w.remaining → ∃ w',
        Attributes.writeRecord name payload w = .ok () w' ∧ w'.cursor = w.cursor + size := by
  refine ⟨recordSize name payload, by simp only [recordSize?, hpack, Option.map_some], ?_⟩
  intro w hw hroom
  rw [← Attributes.length_storedRecord] at hroom ⊢
  exact ⟨_, (Attributes.appends_writeRecord name payload w hw).ok (hasNul_of_pack hpack) hroom, rfl⟩

/-- **Unpacking what was packed**, with pure rules of a caller.  A value that the catalog accepts comes
back, whatever rules the caller has.  Under a name of the caller alone, the caller's rule decodes what it
packed.  Under a name of the catalog, what the caller's rule packed has the value that the catalog's rule
finds, and only if this finds none the value of the caller's own; so it is never a fault of the file if
that rule decodes its own payloads.

An attribute is left out if and only if its name holds a zero byte or no rule of the name accepts the
value.  Then no size is counted for it, at whatever time, and otherwise the size of the record that is
written. -/
theorem unpack_of_pack {custom : Table} (hpure : custom.Pure) (name : String) (value : Value)
    (calls sized : CallLog) (offset : Nat) :
    let r : Registry := { custom }
    let packed := (r.pack name value calls).1
    (∀ payload, packed = some payload →
      (∀ rule, Catalog.table.get? name = some rule → (rule.encode 0 value).isSome →
        r.unpack name payload offset = .ok value) ∧
      (Catalog.table.get? name = none → ∃ own, custom.get? name = some own ∧
        r.unpack name payload offset = answer name payload offset (own.decode payload) ∧
        (own.Decodes → ∃ found, own.decode payload = some found ∧
          r.unpack name payload offset = .ok found)) ∧
      (∀ rule, Catalog.table.get? name = some rule → rule.encode 0 value = none →
        ∃ own, custom.get? name = some own ∧ own.encode 0 value = some payload ∧
          r.unpack name payload offset =
            answer name payload offset ((rule.decode payload).or (own.decode payload)) ∧
          (own.Decodes → ∃ found, r.unpack name payload offset = .ok found)) ∧
      ∃ size, (r.recordSize? name value sized).1 = some size ∧
        ∀ w : Window, w.Writable → size ≤ w.remaining → ∃ w',
          Attributes.writeRecord name payload w = .ok () w' ∧ w'.cursor = w.cursor + size) ∧
    (packed = none ↔ Utf8.hasNul name = true ∨
      (∀ rule, Catalog.table.get? name = some rule → rule.encode 0 value = none) ∧
        ∀ own, custom.get? name = some own → own.encode 0 value = none) ∧
    (packed = none → (r.recordSize? name value sized).1 = none) := by
  intro r packed
  have hpure' : r.custom.Pure := hpure
  have hsized : packed = (r.pack name value sized).1 := pack_eq hpure' name value calls sized
  refine ⟨fun payload hpacked => ⟨?_, ?_, ?_, exists_writeRecord (hsized.symm.trans hpacked)⟩,
    pack_eq_none_iff hpure' value calls, fun hnone => ?_⟩
  · intro rule hrule haccepts
    obtain ⟨stored, hencode⟩ := Option.isSome_iff_exists.1 haccepts
    have hpack : packed = some stored := by
      simp only [packed, pack_eq_or hpure' (hasNul_of_pack hpacked), hrule, Option.bind_some, hencode,
        Option.some_or]
    obtain rfl : stored = payload := Option.some.inj (hpack.symm.trans hpacked)
    rw [unpack_of_catalogued hrule, Catalog.faithful hrule 0 value stored hencode]
    rfl
  · intro hnone
    obtain ⟨own, hcustom, hencode⟩ := exists_own_of_pack hpure' hpacked (by rw [hnone]; rfl)
    refine ⟨own, hcustom, unpack_of_uncatalogued hnone hcustom offset, fun hdecodes => ?_⟩
    obtain ⟨found, hfound⟩ := Option.isSome_iff_exists.1 (hdecodes 0 value payload hencode)
    refine ⟨found, hfound, ?_⟩
    rw [unpack_of_uncatalogued hnone hcustom, hfound]
    rfl
  · intro rule hrule hrefuses
    obtain ⟨own, hcustom, hencode⟩ :=
      exists_own_of_pack hpure' hpacked (by rw [hrule]; exact hrefuses)
    have hunpack : r.unpack name payload offset =
        answer name payload offset ((rule.decode payload).or (own.decode payload)) := by
      rw [unpack_of_catalogued hrule, hcustom, Option.bind_some]
    refine ⟨own, hcustom, hencode, hunpack, fun hdecodes => ?_⟩
    obtain ⟨found, hfound⟩ := Option.isSome_iff_exists.1 (hdecodes 0 value payload hencode)
    rw [hunpack, hfound]
    cases rule.decode payload with
    | some value => exact ⟨value, rfl⟩
    | none => exact ⟨found, rfl⟩
  · simp only [recordSize?, hsized.symm.trans hnone, Option.map_none]

/-- A caller has a rule for raw bytes under a name of the catalog.  Eight bytes come back as the number
that the catalog takes them for, and two as themselves. -/
theorem unpack_of_pack_bytes :
    let custom : Table := .ofList [("CATcos", .bytes)]
    let r : Registry := { custom }
    (r.pack "CATcos" (.bytes [1, 0, 0, 0, 0, 0, 0, 0]) ∅).1 = some [1, 0, 0, 0, 0, 0, 0, 0] ∧
      r.unpack "CATcos" [1, 0, 0, 0, 0, 0, 0, 0] 7 = .ok (.u64 1) ∧
      (r.pack "CATcos" (.bytes [1, 2]) ∅).1 = some [1, 2] ∧
      r.unpack "CATcos" [1, 2] 7 = .ok (.bytes [1, 2]) ∧
      (r.pack "CATcos" (.text "a") ∅).1 = none := by
  intro custom r
  have hpure : custom.Pure := Table.pure_insert Table.pure_empty "CATcos" fun _ _ => rfl
  have hrule : Catalog.table.get? "CATcos" = some .u64 := rfl
  have hcustom : custom.get? "CATcos" = some .bytes := rfl
  have hown (data : Bytes) : (r.pack "CATcos" (.bytes data) ∅).1 = some data ∧
      r.unpack "CATcos" data 7 =
        answer "CATcos" data 7 ((Rule.u64.decode data).or (some (.bytes data))) := by
    obtain ⟨hpacked, -, -⟩ := unpack_of_pack hpure "CATcos" (.bytes data) ∅ ∅ 7
    have hpack : (r.pack "CATcos" (.bytes data) ∅).1 = some data := rfl
    obtain ⟨-, -, hrefused, -⟩ := hpacked data hpack
    obtain ⟨own, hfound, -, hunpack, -⟩ := hrefused .u64 hrule rfl
    obtain rfl := Option.some.inj (hcustom.symm.trans hfound)
    exact ⟨hpack, hunpack⟩
  obtain ⟨hwide, hnumber⟩ := hown [1, 0, 0, 0, 0, 0, 0, 0]
  obtain ⟨hshort, hdata⟩ := hown [1, 2]
  refine ⟨hwide, hnumber, hshort, hdata, ?_⟩
  refine (unpack_of_pack hpure "CATcos" (.text "a") ∅ ∅ 7).2.1.2 (.inr ⟨?_, ?_⟩)
  · rintro rule hfound
    obtain rfl := Option.some.inj (hrule.symm.trans hfound)
    rfl
  · rintro own hfound
    obtain rfl := Option.some.inj (hcustom.symm.trans hfound)
    rfl

end Registry

end HardwareMap
