import HardwareMap.Error
import HardwareMap.Region.Page
import HardwareMap.Region.Path

/-!
# What a new region is to be
-/

namespace HardwareMap

/-- How a region is mapped. -/
inductive Access where
  | write
  | read
deriving DecidableEq

namespace Access

def name : Access → String
  | write => "write"
  | read => "read"

def ofName? (name : String) : Option Access := [write, read].find? (·.name == name)

def label : Access → String
  | write => "Write"
  | read => "Read"

def ofLabel? (label : String) : Option Access := [write, read].find? (·.label == label)

end Access

/-- A request for a new region. -/
structure RegionConfig where
  /-- Where readers will find the file. -/
  path : String := ""
  /-- Length of the file in bytes, header included. -/
  size : Nat := 0
  /-- Permission bits of the file: by default its owner may read and write it. -/
  permissions : UInt32 := 0o600
  /-- Whether the file is written under a staging path and renamed when published. -/
  publishByRename : Bool := true

namespace RegionConfig

/-- Checks that the file has a path, that there is room after the header, and that a file to be
renamed into place has a name. -/
def validate (config : RegionConfig) : Except Error Unit :=
  if config.path = "" then .error (.misuse .emptyPath)
  else if config.size ≤ headerSize then .error (.misuse .sizeWithinHeader)
  else if config.publishByRename && (Path.fileName? config.path).isNone then
    .error (.misuse .unnamedTarget)
  else .ok ()

def writePath (config : RegionConfig) : String :=
  if config.publishByRename then Path.staging config.path else config.path

end RegionConfig

/-- What is known of a mapped region. -/
structure RegionInfo where
  /-- Where readers find the file. -/
  path : String
  /-- Length of the file in bytes, header included. -/
  fileSize : Nat
  access : Access
deriving DecidableEq

def RegionInfo.regionSize (info : RegionInfo) : Nat := info.fileSize - headerSize

end HardwareMap
