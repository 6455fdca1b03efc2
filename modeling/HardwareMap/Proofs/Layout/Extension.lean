import HardwareMap.Layout.ComponentRecord
import HardwareMap.Proofs.Layout.Reading
import HardwareMap.Proofs.Layout.Safety
import HardwareMap.Proofs.Region.Extension

/-!
# Reading records from a region that goes on

The answers of the record readers persist.  Attributes may be read with another registry besides,
which decodes at least the payloads that the first one does, to the same values (`Registry.Extends`).
-/

namespace HardwareMap

open Reader (persists_word persists_text persists_bytes persists_bytesAt persists_position
  persists_fail persists_iterate)

/-! ## Components -/

theorem Details.persists_readFlag : Persists readFlag readFlag := by
  refine persists_position.bind fun start => (persists_word UInt8).bind fun value => ?_
  split
  · exact .pure false
  · exact .pure true
  · exact persists_fail _ _ _

theorem Details.persists_read (kind : Kind) : Persists (read kind) (read kind) := by
  cases kind with
  | generic => exact .pure _
  | thread => exact .pure _
  | core => exact .pure _
  | node => exact .pure _
  | topology => exact .pure _
  | cache =>
    exact (persists_word Int32).bind fun level => persists_text.bind fun type =>
      (persists_word Int64).bind fun size => (persists_word Int32).bind fun ways =>
        (persists_word Int32).bind fun lineSize => .pure _
  | subdivision => exact (persists_word Int32).bind fun type => .pure _
  | numa => exact (persists_word Int64).bind fun size => .pure _
  | storage => exact (persists_word Int64).bind fun size => .pure _
  | chip =>
    exact persists_text.bind fun vendor => persists_text.bind fun model =>
      (persists_word Int32).bind fun type => .pure _
  | memory =>
    exact (persists_word Int64).bind fun size => persists_readFlag.bind fun isVolatile => .pure _

theorem Component.persists_readRecord : Persists readRecord readRecord := by
  refine persists_position.bind fun start => (persists_word UInt64).bind fun tag => ?_
  cases Kind.ofTag? tag with
  | none => exact persists_fail _ _ _
  | some kind =>
    exact (persists_word Int32).bind fun id => (persists_word UInt64).bind fun offset =>
      (persists_word UInt64).bind fun count => persists_text.bind fun name =>
        (Details.persists_read kind).bind fun details => .pure _

theorem ChildTable.persists_offsets (t : ChildTable) : Persists t.offsets t.offsets := by
  unfold offsets
  cases t.size? with
  | none => exact persists_fail _ _ _
  | some size => exact (persists_bytesAt t.offset size).bind fun data => .pure _

/-! ## Attributes -/

namespace Registry

/-- The first registry decodes every payload that the second one does, to the same value. -/
def Extends (r' r : Registry) : Prop :=
  ∀ name payload value, r.unpack? name payload = some value → r'.unpack? name payload = some value

theorem Extends.refl (r : Registry) : r.Extends r := fun _ _ _ h => h

theorem unpack?_of_unpack {r : Registry} {name : String} {payload : Bytes} {offset : Nat}
    {value : Value} (h : r.unpack name payload offset = .ok value) :
    r.unpack? name payload = some value := by
  unfold unpack at h
  unfold unpack?
  cases hrules : r.rules name with
  | nil =>
    simp only [hrules, Except.ok.injEq] at h
    simp only [h]
  | cons rule rest =>
    simp only [hrules] at h ⊢
    split at h
    · next found hfound =>
      cases h
      exact hfound
    · cases h

end Registry

namespace Attributes

variable {r r' : Registry} (h : r'.Extends r)

include h

theorem persists_readRecord (a : Attributes) : Persists (readRecord r a) (readRecord r' a) := by
  refine persists_text.bind fun name => (persists_word UInt64).bind fun length =>
    persists_position.bind fun start => (persists_bytes length.toNat).bind fun payload => ?_
  rcases r.unpack_cases name payload start with ⟨value, hvalue⟩ | hfault
  · have hvalue' := Registry.unpack_eq (h _ _ _ (Registry.unpack?_of_unpack hvalue)) start
    rw [hvalue, hvalue']
    exact .pure _
  · rw [hfault]
    exact persists_fail start _ _

theorem persists_read : Persists (read r) (read r') :=
  (persists_word UInt64).bind fun count => persists_iterate (persists_readRecord h) count.toNat ∅

end Attributes

/-! ## Paths -/

theorem PathRecord.persists_read : Persists read read := by
  refine (persists_word UInt64).bind fun source => (persists_word UInt64).bind fun target =>
    persists_position.bind fun start => (persists_word UInt32).bind fun tag => ?_
  cases Orientation.ofTag? tag with
  | none => exact persists_fail _ _ _
  | some orientation =>
    exact (persists_word Int32).bind fun type => (persists_word Binary64).bind fun bandwidth =>
      (persists_word Binary64).bind fun latency => .pure _

end HardwareMap
