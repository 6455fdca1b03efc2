import HardwareMap.Proofs.Import.Decoder
import Mathlib.Data.List.Nodup
import Mathlib.Data.List.Pairwise

/-!
# Reading a tree is decoding it

The decoder lists components in pre-order (`Decoding.Preorder`), and no offset twice.  Apart from the
start of the region, the offsets of the list are exactly the entries of the child tables of its
members, so each of them stands in one table only, and once.  A region that is accepted is therefore
a tree: one way at most leads from its start to an offset (`Decoding.Preorder.way_unique`).
`Importer.readTree_eq_decode` is the import phase in these terms.
-/

namespace HardwareMap

/-- A way down from the start of a region through its child tables, as the positions in the tables
from the last one to the first. -/
inductive Leads (r : Registry) (bytes : Bytes) : List Nat → Nat → Prop
  | start : Leads r bytes [] 0
  | child {way : List Nat} {offset next i s s' : Nat} {m : MemberRecord}
      (h : Leads r bytes way offset) (hread : MemberRecord.readAt r offset bytes s = .ok m s')
      (hnext : m.children[i]? = some next) : Leads r bytes (i :: way) next

namespace Decoding

/-- The components at some offsets in pre-order, each followed by all below it. -/
inductive Preorder (r : Registry) (bytes : Bytes) : List Nat → List Decoded → Prop
  | nil : Preorder r bytes [] []
  | cons {m : Decoded} {rest : List Nat} {below beside : List Decoded} {s s' : Nat}
      (hread : MemberRecord.readAt r m.offset bytes s = .ok m.record s')
      (hbelow : Preorder r bytes m.record.children below) (hbeside : Preorder r bytes rest beside) :
      Preorder r bytes (m.offset :: rest) (m :: (below ++ beside))

/-- What is decoded comes in pre-order behind what was there, and no offset comes twice. -/
theorem preorder_of_decode (r : Registry) (bytes : Bytes) (base : Nat) (offsets : List Nat)
    (parent : Option ComponentId) (d : Decoding) (hnodup : d.offsets.Nodup) {d' : Decoding}
    {hle : d'.unread bytes.length ≤ d.unread bytes.length}
    (h : decode r bytes base offsets parent d = .ok ⟨d', hle⟩) :
    d'.offsets.Nodup ∧ ∃ new, d'.members = d.members ++ new ∧ Preorder r bytes offsets new := by
  fun_induction decode r bytes base offsets parent d generalizing d' with
  | case1 parent d =>
    cases h
    exact ⟨hnodup, [], (List.append_nil _).symm, .nil⟩
  | case2 => cases h
  | case3 => cases h
  | case4 => cases h
  | case5 => cases h
  | case6 parent d offset rest hnew record cursor hread hlt below hle₁ hbelow beside hle₂ hbeside ih₁
      ih₂ =>
    cases h
    have hpushed : (d.push { offset, parent, record } cursor).offsets.Nodup := by
      simp only [Decoding.offsets, push, List.map_append, List.map_singleton]
      exact hnodup.append (List.nodup_singleton _) (by simpa using hnew)
    obtain ⟨hnodup₁, new₁, hmembers₁, hpre₁⟩ := ih₁ hpushed hbelow
    obtain ⟨hnodup₂, new₂, hmembers₂, hpre₂⟩ := ih₂ hnodup₁ hbeside
    let m : Decoded := { offset, parent, record }
    refine ⟨hnodup₂, m :: (new₁ ++ new₂), ?_, Preorder.cons (m := m) hread hpre₁ hpre₂⟩
    rw [hmembers₂, hmembers₁, push]
    simp only [List.append_assoc, List.cons_append, List.nil_append, m]

theorem preorder_of_ofRegion {r : Registry} {bytes : Bytes} {base cursor : Nat} {d : Decoding}
    (h : ofRegion r bytes base cursor = .ok d) :
    (d.members.map (·.offset)).Nodup ∧ Preorder r bytes [0] d.members := by
  unfold ofRegion at h
  rcases hdecode : decode r bytes base [0] none { cursor } with e | ⟨d', hle⟩
  · rw [hdecode] at h
    cases h
  · rw [hdecode] at h
    cases h
    obtain ⟨hnodup, new, hmembers, hpre⟩ :=
      preorder_of_decode r bytes base [0] none { cursor } .nil hdecode
    rw [List.nil_append] at hmembers
    rw [hmembers]
    exact ⟨hmembers ▸ hnodup, hpre⟩

namespace Preorder

variable {r : Registry} {bytes : Bytes} {offsets : List Nat} {members : List Decoded}

theorem exists_readAt (h : Preorder r bytes offsets members) {m : Decoded} (hm : m ∈ members) :
    ∃ s s', MemberRecord.readAt r m.offset bytes s = .ok m.record s' := by
  induction h with
  | nil => cases hm
  | cons hread _ _ ih₁ ih₂ =>
    rcases List.mem_cons.1 hm with rfl | hm
    · exact ⟨_, _, hread⟩
    · rcases List.mem_append.1 hm with hm | hm
      · exact ih₁ hm
      · exact ih₂ hm

/-- The offsets that were decoded are those that were asked for and the entries of the child tables,
counted as often as they occur. -/
theorem perm (h : Preorder r bytes offsets members) :
    (members.map (·.offset)).Perm (offsets ++ members.flatMap (·.record.children)) := by
  induction h with
  | nil => exact .refl _
  | @cons m rest below beside _ _ _ _ _ ih₁ ih₂ =>
    rw [List.perm_iff_count] at ih₁ ih₂ ⊢
    intro offset
    have hbelow := ih₁ offset
    have hbeside := ih₂ offset
    simp only [List.map_cons, List.map_append, List.flatMap_cons, List.flatMap_append,
      List.cons_append, List.count_cons, List.count_append] at hbelow hbeside ⊢
    omega

/-- Whatever is decoded below offsets that can be reached can be reached. -/
theorem exists_way (h : Preorder r bytes offsets members)
    (hoffsets : ∀ offset ∈ offsets, ∃ way, Leads r bytes way offset) {m : Decoded}
    (hm : m ∈ members) : ∃ way, Leads r bytes way m.offset := by
  induction h with
  | nil => cases hm
  | @cons first rest below beside _ _ hread _ _ ih₁ ih₂ =>
    rw [List.forall_mem_cons] at hoffsets
    obtain ⟨⟨way, hway⟩, hrest⟩ := hoffsets
    rcases List.mem_cons.1 hm with rfl | hm
    · exact ⟨way, hway⟩
    · rcases List.mem_append.1 hm with hm | hm
      · refine ih₁ (fun next hnext => ?_) hm
        obtain ⟨i, hi⟩ := List.mem_iff_getElem?.1 hnext
        exact ⟨i :: way, hway.child hread hi⟩
      · exact ih₂ hrest hm

section Tree

variable (h : Preorder r bytes [0] members)

include h

/-- The members are the only records behind their offsets. -/
theorem mem_children (hoffset : offset ∈ members.map (·.offset)) {m : MemberRecord} {s s' : Nat}
    (hread : MemberRecord.readAt r offset bytes s = .ok m s') :
    ∃ member ∈ members, member.offset = offset ∧ member.record = m := by
  obtain ⟨member, hmember, rfl⟩ := List.mem_map.1 hoffset
  obtain ⟨t, t', hread'⟩ := h.exists_readAt hmember
  rw [MemberRecord.readAt_of_readAt hread' s] at hread
  cases hread
  exact ⟨member, hmember, rfl, rfl⟩

/-- Every offset that can be reached was decoded. -/
theorem mem_of_leads {way : List Nat} {offset : Nat} (hway : Leads r bytes way offset) :
    offset ∈ members.map (·.offset) := by
  induction hway with
  | start => exact h.perm.mem_iff.2 (List.mem_append_left _ List.mem_cons_self)
  | child _ hread hnext ih =>
    obtain ⟨member, hmember, -, rfl⟩ := h.mem_children ih hread
    refine h.perm.mem_iff.2 (List.mem_append_right _ (List.mem_flatMap.2 ⟨member, hmember, ?_⟩))
    exact List.mem_of_getElem? hnext

/-- If no offset was decoded twice then no two ways lead to one. -/
theorem way_unique (hnodup : (members.map (·.offset)).Nodup) {way way' : List Nat} {offset : Nat}
    (hway : Leads r bytes way offset) (hway' : Leads r bytes way' offset) : way = way' := by
  have hall : (0 :: members.flatMap (·.record.children)).Nodup := h.perm.nodup_iff.1 hnodup
  obtain ⟨hzero, htables⟩ := List.nodup_cons.1 hall
  obtain ⟨hinside, hapart⟩ := List.nodup_flatMap.1 htables
  -- no child table leads back to the start
  have hback : ∀ {way : List Nat} {origin i s s' : Nat} {m : MemberRecord},
      Leads r bytes way origin → MemberRecord.readAt r origin bytes s = .ok m s' →
        m.children[i]? ≠ some 0 := by
    intro way origin i s s' m horigin hread hnext
    obtain ⟨member, hmember, -, rfl⟩ := h.mem_children (h.mem_of_leads horigin) hread
    exact hzero (List.mem_flatMap.2 ⟨member, hmember, List.mem_of_getElem? hnext⟩)
  induction hway generalizing way' with
  | start =>
    cases hway' with
    | start => rfl
    | child horigin hread hnext => exact absurd hnext (hback horigin hread)
  | child horigin hread hnext ih =>
    cases hway' with
    | start => exact absurd hnext (hback horigin hread)
    | child horigin' hread' hnext' =>
      obtain ⟨first, hfirst, rfl, rfl⟩ := h.mem_children (h.mem_of_leads horigin) hread
      obtain ⟨second, hsecond, rfl, rfl⟩ := h.mem_children (h.mem_of_leads horigin') hread'
      have hsame : first = second := by
        by_contra hne
        have hsymm : Std.Symm (Function.onFun List.Disjoint fun m : Decoded => m.record.children) :=
          ⟨fun _ _ => List.disjoint_symm⟩
        exact hapart.forall hfirst hsecond hne (List.mem_of_getElem? hnext)
          (List.mem_of_getElem? hnext')
      subst hsame
      obtain ⟨hlt, -⟩ := List.getElem?_eq_some_iff.1 hnext
      rw [ih horigin', (List.getElem?_inj hlt (hinside first hfirst)).1 (hnext.trans hnext'.symm)]

end Tree

end Preorder

end Decoding

theorem Importer.readTree_eq_readTasks (r : Registry) (bytes : Bytes) (intake : Intake) :
    readTree { registry := r, phase := .readingHeader } bytes intake =
      match TreeIndex.readTasks r bytes [{ offset := 0, parent := none }] {} intake with
      | .ok index intake => (.ok index, { registry := r, phase := .readingTree }, intake)
      | .error e intake => (.error e, { registry := r, phase := .readingTree }, intake) := by
  simp only [readTree, intaking, enter, if_true]
  cases TreeIndex.readTasks r bytes [{ offset := 0, parent := none }] {} intake with
  | ok index intake => rfl
  | error e intake => rfl

/-- **The tree is read as the recursive decoder reads it**: the same components in the same order
under the same parents, the same index of offsets with the same end, or the same failure with the
same components before it.  And a region that is accepted leads to every offset in the index, and to
no other, in exactly one way. -/
theorem Importer.readTree_eq_decode (r : Registry) (bytes : Bytes) (intake : Intake) :
    let x : Importer := { registry := r, phase := .readingHeader }
    let x' : Importer := { registry := r, phase := .readingTree }
    (x.readTree bytes intake =
      match Decoding.ofRegion r bytes intake.graph.size intake.cursor with
      | .ok d => (.ok (d.index intake.graph.size), x', ⟨d.graph intake.graph, d.cursor⟩)
      | .error (e, d) => (.error e, x', ⟨d.graph intake.graph, d.cursor⟩)) ∧
    ∀ index, (x.readTree bytes intake).1 = .ok index → ∀ offset,
      (index.offsets.contains offset = true ↔ ∃ way, Leads r bytes way offset) ∧
      ((∃ way, Leads r bytes way offset) → ∃! way, Leads r bytes way offset) := by
  intro x x'
  rw [readTree_eq_readTasks, TreeIndex.readTasks_eq_ofRegion]
  rcases hregion : Decoding.ofRegion r bytes intake.graph.size intake.cursor with ⟨e, d⟩ | d
  · refine ⟨rfl, ?_⟩
    rintro index ⟨⟩
  · refine ⟨rfl, ?_⟩
    rintro index ⟨⟩ offset
    obtain ⟨hnodup, hpre⟩ := Decoding.preorder_of_ofRegion hregion
    refine ⟨?_, ?_⟩
    · rw [Decoding.contains_index, decide_eq_true_eq]
      constructor
      · intro hmem
        obtain ⟨m, hm, rfl⟩ := List.mem_map.1 hmem
        refine hpre.exists_way (fun first hfirst => ?_) hm
        rw [List.mem_singleton.1 hfirst]
        exact ⟨[], .start⟩
      · rintro ⟨way, hway⟩
        exact hpre.mem_of_leads hway
    · rintro ⟨way, hway⟩
      exact ⟨way, hway, fun way' hway' => hpre.way_unique hnodup hway' hway⟩

end HardwareMap
