import HardwareMap.Proofs.Attribute.Sameness
import HardwareMap.Topology.Component
import HardwareMap.Topology.DataPath

/-!
# Components and paths of the same content

Whether two components, or two data paths, have the same content is put together from their parts.  All
parts but the attributes are compared by equality, the bandwidth and the latency of a path by their bits.
So a measurement that is a NaN is the same as itself and an attribute that is a NaN is not, and this is
the only way in which the comparison fails to be an equivalence (`sameContent_partialEquivalence`).
-/

namespace HardwareMap

theorem Component.partialEquivalence :
    PartialEquivalence Component.sameContent fun c => c.attributes.hasNan = false := by
  have hid := PartialEquivalence.beq.on Component.id
  have hname := PartialEquivalence.beq.on Component.name
  have hdetails := PartialEquivalence.beq.on Component.details
  have hattributes := Attributes.partialEquivalence.on Component.attributes
  exact (((hid.and hname).and hdetails).and hattributes).congr fun c => by simp

theorem DataPath.partialEquivalence :
    PartialEquivalence DataPath.sameContent fun p => p.attributes.hasNan = false := by
  have horientation := PartialEquivalence.beq.on DataPath.orientation
  have htype := PartialEquivalence.beq.on DataPath.type
  have hbandwidth := PartialEquivalence.beq.on fun p : DataPath => p.bandwidth
  have hlatency := PartialEquivalence.beq.on fun p : DataPath => p.latency
  have hattributes := Attributes.partialEquivalence.on fun p : DataPath => p.attributes
  exact ((((horientation.and htype).and hbandwidth).and hlatency).and hattributes).congr
    fun p => by simp

/-- **Same content**: for components and for data paths, whatever their attributes and measurements are,
having the same content is symmetric and transitive, and exactly what has no attribute with a NaN in it
has the same content as itself. -/
theorem sameContent_partialEquivalence (a b c : Component) (p q r : DataPath) :
    ((a.sameContent a = true ↔ a.attributes.hasNan = false) ∧
      (a.sameContent b = true → b.sameContent a = true) ∧
      (a.sameContent b = true → b.sameContent c = true → a.sameContent c = true)) ∧
    (p.sameContent p = true ↔ p.attributes.hasNan = false) ∧
      (p.sameContent q = true → q.sameContent p = true) ∧
      (p.sameContent q = true → q.sameContent r = true → p.sameContent r = true) := by
  have hcomponents := Component.partialEquivalence
  have hpaths := DataPath.partialEquivalence
  exact ⟨⟨hcomponents.self_iff a, hcomponents.symm a b, hcomponents.trans a b c⟩,
    hpaths.self_iff p, hpaths.symm p q, hpaths.trans p q r⟩

/-- A component whose only attribute is a NaN, and a path with the same attribute, differ from
themselves; a path without attributes whose bandwidth is that NaN does not. -/
theorem sameContent_nan :
    let nan : Binary64 := ⟨0x7ff8000000000000⟩
    let attributes : Attributes := ⟨[("load", .f64 nan)], by simp⟩
    let component : Component := { id := 0, details := .node, attributes }
    let path : DataPath :=
      { source := 0, target := 0, orientation := .oriented, type := .none, attributes }
    component.sameContent component = false ∧ path.sameContent path = false ∧
      ({ path with bandwidth := nan, attributes := ∅ } : DataPath).sameContent
        { path with bandwidth := nan, attributes := ∅ } = true :=
  ⟨rfl, rfl, rfl⟩

end HardwareMap
