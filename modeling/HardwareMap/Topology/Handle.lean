/-!
# Handles

Components and data paths are referred to by their numbers in the graph that holds them.
-/

namespace HardwareMap

/-- A handle of a component: its number in its graph. -/
abbrev ComponentId := Nat

/-- A handle of a data path: its number in its graph, never used again. -/
abbrev PathId := Nat

/-- What an attribute belongs to. -/
inductive AttributeOwner where
  | component (id : ComponentId)
  | dataPath (id : PathId)
deriving DecidableEq

end HardwareMap
