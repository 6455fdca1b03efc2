import HardwareMap.Layout.AttributeSection
import HardwareMap.Layout.ComponentRecord
import HardwareMap.Layout.PathRecord
import HardwareMap.Proofs.Region.Safety

/-!
# Reading records from bytes that may be anything

Every record reader ends with an answer or with a fault of the bytes, and moves on by the fixed part
of its record at least, whatever the tags, counts and lengths in it say.
-/

namespace HardwareMap

open Reader (Advances advances_word advances_text advances_bytes orderly_fail)

/-! ## Components -/

theorem Details.advances_readFlag : Advances 1 readFlag := by
  refine Advances.position fun start => ?_
  refine (advances_word UInt8).bind (k := 0) fun value => ?_
  split
  · exact .pure false
  · exact .pure true
  · exact .fail 0 _ _

theorem Details.advances_read (kind : Kind) : Advances 0 (read kind) := by
  cases kind with
  | generic => exact .pure _
  | thread => exact .pure _
  | core => exact .pure _
  | node => exact .pure _
  | topology => exact .pure _
  | cache =>
    refine Advances.mono ((advances_word Int32).bind fun level => advances_text.bind fun type =>
      (advances_word Int64).bind fun size => (advances_word Int32).bind fun ways =>
        (advances_word Int32).bind fun lineSize => .pure _) (Nat.zero_le _)
  | subdivision => exact ((advances_word Int32).bind fun type => .pure _).mono (Nat.zero_le _)
  | numa => exact ((advances_word Int64).bind fun size => .pure _).mono (Nat.zero_le _)
  | storage => exact ((advances_word Int64).bind fun size => .pure _).mono (Nat.zero_le _)
  | chip =>
    exact Advances.mono (advances_text.bind fun vendor => advances_text.bind fun model =>
      (advances_word Int32).bind fun type => .pure _) (Nat.zero_le _)
  | memory =>
    exact Advances.mono ((advances_word Int64).bind fun size =>
      advances_readFlag.bind fun isVolatile => .pure _) (Nat.zero_le _)

/-- A record takes up at least what the record of a component with an empty name and no details
does. -/
theorem Component.advances_readRecord :
    Advances (wordSize + 4 + ChildTable.encodedSize + 1) readRecord := by
  refine Advances.position fun start => ?_
  refine Advances.mono (n := 8 + (4 + (8 + (8 + (1 + (0 + 0)))))) ?_ (by decide)
  refine (advances_word UInt64).bind fun tag => ?_
  cases Kind.ofTag? tag with
  | none => exact .fail _ _ _
  | some kind =>
    exact (advances_word Int32).bind fun id => (advances_word UInt64).bind fun offset =>
      (advances_word UInt64).bind fun count => advances_text.bind fun name =>
        (Details.advances_read kind).bind fun details => .pure _

namespace ChildTable

theorem length_wordsOf (count : Nat) (bytes : Bytes) : (wordsOf count bytes).length = count := by
  induction count generalizing bytes with
  | zero => rfl
  | succ count ih => rw [wordsOf, List.length_cons, ih]

/-- A table that can be read lies inside the region. -/
theorem orderly_offsets (t : ChildTable) {region : Bytes} {cursor : Nat} :
    Orderly (fun children cursor' => t.offset + children.length * wordSize ≤ region.length ∧
      cursor' = cursor) (t.offsets region cursor) := by
  unfold offsets size? checkedMul?
  by_cases hsize : t.count * wordSize < UInt64.size
  · rw [if_pos hsize]
    refine (Reader.orderly_bytesAt t.offset (t.count * wordSize)).bind ?_
    rintro data _ ⟨hle, -, rfl⟩
    refine ⟨?_, rfl⟩
    rw [length_wordsOf]
    exact hle
  · rw [if_neg hsize]
    exact orderly_fail _ _

end ChildTable

/-! ## Attributes -/

/-- A payload that the rules of its name cannot decode is a fault of the file. -/
theorem Registry.unpack_cases (r : Registry) (name : String) (payload : Bytes) (offset : Nat) :
    (∃ value, r.unpack name payload offset = .ok value) ∨
      r.unpack name payload offset =
        .error (.malformed offset (.undecodable name payload.length)) := by
  unfold unpack
  split
  · exact .inl ⟨_, rfl⟩
  · split
    · exact .inl ⟨_, rfl⟩
    · exact .inr rfl

namespace Attributes

theorem advances_readRecord (r : Registry) (a : Attributes) :
    Advances (1 + wordSize) (readRecord r a) := by
  refine Advances.mono (n := 1 + (8 + 0)) ?_ (by decide)
  refine advances_text.bind fun name => (advances_word UInt64).bind fun length => ?_
  refine Advances.position fun start => ?_
  refine Advances.mono ((advances_bytes length.toNat).bind (k := 0) fun payload => ?_) (Nat.zero_le _)
  rcases r.unpack_cases name payload start with ⟨value, hvalue⟩ | hfault
  · rw [hvalue]
    exact .pure _
  · rw [hfault]
    exact .fail 0 start _

theorem advances_read (r : Registry) : Advances wordSize (read r) :=
  (advances_word UInt64).bind fun count =>
    .iterate (fun a => (advances_readRecord r a).mono (Nat.zero_le _)) count.toNat ∅

end Attributes

/-! ## Paths -/

theorem PathRecord.advances_read : Advances size read := by
  refine Advances.mono (n := 8 + (8 + (4 + (4 + (8 + (8 + 0)))))) ?_ (by decide)
  refine (advances_word UInt64).bind fun source => (advances_word UInt64).bind fun target => ?_
  refine Advances.position fun start => (advances_word UInt32).bind fun tag => ?_
  cases Orientation.ofTag? tag with
  | none => exact .fail _ _ _
  | some orientation =>
    exact (advances_word Int32).bind fun type => (advances_word Binary64).bind fun bandwidth =>
      (advances_word Binary64).bind fun latency => .pure _

end HardwareMap
