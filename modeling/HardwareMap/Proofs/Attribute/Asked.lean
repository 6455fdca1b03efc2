import HardwareMap.Proofs.Attribute.Rules
import Mathlib.Data.List.Nodup

/-!
# Encoders that change their answer

An encoder of a caller may answer every call differently.  So what an attribute is packed to depends on
how often the encoder of its name was called before, and on nothing else that the passes of an export do
(`CallLog.count`).  `Registry.recovered?` tells what a reader with the catalog alone finds of it: the
value itself if the catalog accepts it, and the bytes that the encoder answered with if the name is the
caller's own.
-/

namespace HardwareMap

/-- How often the encoder of a name was called. -/
def CallLog.count (calls : CallLog) (name : String) : Nat := (calls.get? name).getD 0

@[simp] theorem CallLog.count_empty (name : String) : count ∅ name = 0 := rfl

theorem CallLog.count_insert (calls : CallLog) (name other : String) (n : Nat) :
    count (calls.insert name n) other = if name = other then n else calls.count other := by
  rw [count, SortedMap.get?_insert]
  by_cases h : name = other
  · rw [if_pos h, if_pos h, Option.getD_some]
  · rw [if_neg h, if_neg h, count]

/-- All names of a table are outside of the catalog. -/
def Table.Uncatalogued (t : Table) : Prop :=
  ∀ name rule, t.get? name = some rule → Catalog.table.get? name = none

namespace Registry

/-- The encoder of the caller is asked about the attributes of a name. -/
structure Asks (r : Registry) (name : String) : Prop where
  name_free : Utf8.hasNul name = false
  uncatalogued : Catalog.table.get? name = none
  rule_isSome : (r.custom.get? name).isSome

/-- What a reader with the catalog alone finds of an attribute if the encoder of its name was called so
often before it was packed; none if it is left out. -/
def recovered? (r : Registry) (earlier : Nat) (name : String) (value : Value) : Option Value :=
  if Utf8.hasNul name then none
  else
    match Catalog.table.get? name with
    | some rule => if (rule.encode 0 value).isSome then some value else none
    | none => ((r.custom.get? name).bind (·.encode earlier value)).map .bytes

variable {r : Registry} {name other : String} {value : Value} {calls : CallLog}

/-! ### What packing does -/

theorem pack_of_hasNul (hname : Utf8.hasNul name = true) : r.pack name value calls = (none, calls) := by
  rw [pack, if_pos hname]

theorem pack_of_catalogued (h : r.custom.Uncatalogued) (hname : Utf8.hasNul name = false)
    {rule : Rule} (hrule : Catalog.table.get? name = some rule) :
    r.pack name value calls = (rule.encode 0 value, calls) := by
  have hcustom : r.custom.get? name = none := by
    refine Option.eq_none_iff_forall_ne_some.2 fun own hown => ?_
    rw [h name own hown] at hrule
    cases hrule
  rw [pack, if_neg (by rw [hname]; decide), hrule, Option.bind_some, hcustom]
  cases rule.encode 0 value <;> rfl

theorem pack_of_uncatalogued (hname : Utf8.hasNul name = false)
    (hnone : Catalog.table.get? name = none) :
    r.pack name value calls =
      ((r.custom.get? name).bind (·.encode (calls.count name) value),
        if (r.custom.get? name).isSome then calls.insert name (calls.count name + 1) else calls) := by
  rw [pack, if_neg (by rw [hname]; decide), hnone, Option.bind_none]
  cases r.custom.get? name <;> rfl

/-- Each attribute of a name that the caller is asked about is one call of the encoder. -/
theorem count_pack (h : r.custom.Uncatalogued) (hasks : r.Asks other) :
    (r.pack name value calls).2.count other =
      calls.count other + if name = other then 1 else 0 := by
  by_cases heq : name = other
  · subst heq
    rw [pack_of_uncatalogued hasks.name_free hasks.uncatalogued, if_pos hasks.rule_isSome,
      CallLog.count_insert, if_pos rfl, if_pos rfl]
  · rw [if_neg heq, Nat.add_zero]
    cases hname : Utf8.hasNul name with
    | true => rw [pack_of_hasNul hname]
    | false =>
      cases hrule : Catalog.table.get? name with
      | some rule => rw [pack_of_catalogued h hname hrule]
      | none =>
        rw [pack_of_uncatalogued hname hrule]
        split
        · rw [CallLog.count_insert, if_neg heq]
        · rfl

theorem recovered?_of_hasNul {earlier : Nat} (hname : Utf8.hasNul name = true) :
    r.recovered? earlier name value = none := by
  rw [recovered?, if_pos hname]

theorem recovered?_of_catalogued {earlier : Nat} (hname : Utf8.hasNul name = false) {rule : Rule}
    (hrule : Catalog.table.get? name = some rule) :
    r.recovered? earlier name value = if (rule.encode 0 value).isSome then some value else none := by
  rw [recovered?, if_neg (by rw [hname]; decide), hrule]

theorem recovered?_of_uncatalogued {earlier : Nat} (hname : Utf8.hasNul name = false)
    (hnone : Catalog.table.get? name = none) :
    r.recovered? earlier name value =
      ((r.custom.get? name).bind (·.encode earlier value)).map .bytes := by
  rw [recovered?, if_neg (by rw [hname]; decide), hnone]

/-- What is found of an attribute is what its payload stands for. -/
theorem bind_unpack?_pack (h : r.custom.Uncatalogued) (name : String) (value : Value)
    (calls : CallLog) :
    (r.pack name value calls).1.bind (unpack? {} name) =
      r.recovered? (calls.count name) name value := by
  cases hname : Utf8.hasNul name with
  | true => rw [pack_of_hasNul hname, recovered?_of_hasNul hname, Option.bind_none]
  | false =>
    cases hrule : Catalog.table.get? name with
    | some rule =>
      rw [pack_of_catalogued h hname hrule, recovered?_of_catalogued hname hrule]
      cases hencode : rule.encode 0 value with
      | none => rfl
      | some payload =>
        rw [Option.bind_some, if_pos (by rfl)]
        exact unpack?_of_catalog hrule (Catalog.faithful hrule 0 value payload hencode) {}
    | none =>
      have hbytes (payload : Bytes) : unpack? {} name payload = some (.bytes payload) := by
        rw [unpack?, rules, hrule]
        rfl
      rw [pack_of_uncatalogued hname hrule, recovered?_of_uncatalogued hname hrule]
      cases (r.custom.get? name).bind (·.encode (calls.count name) value) with
      | none => rfl
      | some payload => rw [Option.bind_some, hbytes, Option.map_some]

/-- An attribute is left out where nothing is found of it. -/
theorem isSome_pack (h : r.custom.Uncatalogued) (name : String) (value : Value) (calls : CallLog) :
    (r.pack name value calls).1.isSome = (r.recovered? (calls.count name) name value).isSome := by
  cases hname : Utf8.hasNul name with
  | true => rw [pack_of_hasNul hname, recovered?_of_hasNul hname]; rfl
  | false =>
    cases hrule : Catalog.table.get? name with
    | some rule =>
      rw [pack_of_catalogued h hname hrule, recovered?_of_catalogued hname hrule]
      cases rule.encode 0 value <;> rfl
    | none =>
      rw [pack_of_uncatalogued hname hrule, recovered?_of_uncatalogued hname hrule,
        Option.isSome_map]

/-- How often an encoder was called matters only where it is asked. -/
theorem recovered?_congr {earlier earlier' : Nat} (h : r.Asks name → earlier = earlier') :
    r.recovered? earlier name value = r.recovered? earlier' name value := by
  cases hname : Utf8.hasNul name with
  | true => rw [recovered?_of_hasNul hname, recovered?_of_hasNul hname]
  | false =>
    cases hrule : Catalog.table.get? name with
    | some rule => rw [recovered?_of_catalogued hname hrule, recovered?_of_catalogued hname hrule]
    | none =>
      rw [recovered?_of_uncatalogued hname hrule, recovered?_of_uncatalogued hname hrule]
      cases hcustom : r.custom.get? name with
      | none => rfl
      | some rule => rw [h ⟨hname, hrule, by rw [hcustom]; rfl⟩]

/-! ### What packing all attributes of an owner does -/

theorem count_packAll (h : r.custom.Uncatalogued) (hasks : r.Asks name)
    (entries : List (String × Value)) (calls : CallLog) :
    (r.packAll entries calls).2.count name = calls.count name + (entries.map (·.1)).count name := by
  induction entries generalizing calls with
  | nil => rfl
  | cons entry rest ih =>
    rw [packAll_cons, List.map_cons, List.count_cons]
    simp only
    rw [ih, count_pack h hasks, beq_eq_decide]
    simp only [decide_eq_true_eq]
    omega

/-- What a name is packed to depends on the calls of its own encoder alone. -/
theorem pack_fst_congr {calls' : CallLog} (h : calls.count name = calls'.count name) :
    (r.pack name value calls).1 = (r.pack name value calls').1 := by
  simp only [CallLog.count] at h
  unfold pack
  simp only [h]
  split
  · rfl
  · split
    · rfl
    · split <;> rfl

theorem count_pack_of_ne (h : name ≠ other) :
    (r.pack name value calls).2.count other = calls.count other := by
  unfold pack
  split
  · rfl
  · split
    · rfl
    · split
      · rfl
      · rw [CallLog.count_insert, if_neg h]

/-- Of attributes with different names each is packed as if it came first. -/
theorem packAll_of_nodup (r : Registry) {entries : List (String × Value)}
    (hnodup : (entries.map (·.1)).Nodup) (calls : CallLog) :
    (r.packAll entries calls).1 =
      { packed := entries.filterMap fun a => (r.pack a.1 a.2 calls).1.map (a.1, ·)
        dropped := (entries.filter fun a => (r.pack a.1 a.2 calls).1.isNone).map (·.1) } := by
  induction entries generalizing calls with
  | nil => rfl
  | cons entry rest ih =>
    rw [List.map_cons, List.nodup_cons] at hnodup
    have hrest : ∀ a ∈ rest, (r.pack a.1 a.2 (r.pack entry.1 entry.2 calls).2).1 =
        (r.pack a.1 a.2 calls).1 := fun a ha =>
      pack_fst_congr (count_pack_of_ne fun heq => hnodup.1 (heq ▸ List.mem_map_of_mem ha))
    rw [packAll_cons, ih hnodup.2,
      List.filterMap_congr fun a ha => congrArg (Option.map (a.1, ·)) (hrest a ha),
      List.filter_congr fun a ha => congrArg Option.isNone (hrest a ha)]
    cases hpack : (r.pack entry.1 entry.2 calls).1 with
    | none =>
      rw [List.filterMap_cons_none (by rw [hpack]; rfl),
        List.filter_cons_of_pos (by rw [hpack]; rfl), List.map_cons]
    | some payload =>
      rw [List.filterMap_cons_some (by rw [hpack]; rfl),
        List.filter_cons_of_neg (by rw [hpack]; simp)]

section PackAll

variable (h : r.custom.Uncatalogued) {entries : List (String × Value)}
  (hnodup : (entries.map (·.1)).Nodup)

include h hnodup

/-- A reader with the catalog alone finds every payload. -/
theorem unpackable_packAll_of_uncatalogued : Unpackable {} (r.packAll entries calls).1.packed := by
  rw [r.packAll_of_nodup hnodup]
  intro record hrecord
  obtain ⟨entry, -, hentry⟩ := List.mem_filterMap.1 hrecord
  obtain ⟨payload, hpayload, rfl⟩ := Option.map_eq_some_iff.1 hentry
  have hfound := bind_unpack?_pack h entry.1 entry.2 calls
  have hsome := isSome_pack h entry.1 entry.2 calls
  rw [← hfound, hpayload, Option.bind_some] at hsome
  exact hsome.symm

variable {earlier : String → Nat}
  (hcount : ∀ name, r.Asks name → calls.count name = earlier name)

include hcount

theorem unpackAll_packAll_of_count :
    unpackAll {} (r.packAll entries calls).1.packed = entries.filterMap fun entry =>
      (r.recovered? (earlier entry.1) entry.1 entry.2).map (entry.1, ·) := by
  rw [r.packAll_of_nodup hnodup, unpackAll, List.filterMap_filterMap]
  refine List.filterMap_congr fun entry _ => ?_
  rw [← recovered?_congr (hcount entry.1), ← bind_unpack?_pack h]
  cases (r.pack entry.1 entry.2 calls).1 with
  | none => rfl
  | some payload => rw [Option.map_some, Option.bind_some, Option.bind_some]

theorem dropped_packAll_of_count :
    (r.packAll entries calls).1.dropped = (entries.filter fun entry =>
      (r.recovered? (earlier entry.1) entry.1 entry.2).isNone).map (·.1) := by
  rw [r.packAll_of_nodup hnodup]
  refine congrArg (List.map _) (List.filter_congr fun entry _ => ?_)
  rw [← recovered?_congr (hcount entry.1), ← Option.not_isSome, ← Option.not_isSome, isSome_pack h]

end PackAll

end Registry

/-- What a reader with the catalog alone finds of the attributes of an owner, if the encoder of each
name was called so often before. -/
def Attributes.recovered (a : Attributes) (r : Registry) (earlier : String → Nat) : Attributes :=
  .ofList (a.entries.filterMap fun entry =>
    (r.recovered? (earlier entry.1) entry.1 entry.2).map (entry.1, ·))

/-- The names of the attributes of which nothing is found. -/
def Attributes.lost (a : Attributes) (r : Registry) (earlier : String → Nat) : List String :=
  (a.entries.filter fun entry =>
    (r.recovered? (earlier entry.1) entry.1 entry.2).isNone).map (·.1)

end HardwareMap
