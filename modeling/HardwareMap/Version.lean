/-!
# The version of the library
-/

namespace HardwareMap

/-- The version, as major, minor and patch numbers. -/
def version : String := "0.1.0"

end HardwareMap
