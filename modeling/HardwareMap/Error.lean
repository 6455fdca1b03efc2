import HardwareMap.Phase
import HardwareMap.Text.Quoted
import HardwareMap.Text.Utf8

/-!
# What can go wrong

Every failure is a cause with the facts that belong to it; `Error.message` holds all wording.  A
`Crash` is not reported to a caller but ends the program: a sum that is no machine word, or an access
past the end.
-/

namespace HardwareMap

/-- The step on a file that failed. -/
inductive FileStep where
  | create
  | setSize
  | map
  | openExisting
  | stat
  | mapHeader
  | flush
  | publish
  /-- A step of which nothing is known. -/
  | unspecified
  /-- Any other step, described by its text. -/
  | other (context : String)
deriving DecidableEq

/-- Why a call was refused whatever the file holds. -/
inductive Misuse where
  | emptyPath
  /-- The file would have no room after its header. -/
  | sizeWithinHeader
  /-- A file to be renamed into place needs a final path component. -/
  | unnamedTarget
  /-- A region that was opened for reading is not written. -/
  | readOnly
  /-- Terminated text cannot hold its own terminator. -/
  | interiorNul (text : String)
  | exportOrder (next current : ExportPhase)
  | importOrder (next current : ImportPhase)
  /-- Any other parameter, with a text of its own. -/
  | other (parameter text : String)
deriving DecidableEq

/-- How the bytes of a file fail to be a topology. -/
inductive Malformed where
  | shorterThanHeader (held : Nat)
  | lengthMismatch (recorded held : Nat)
  | pastEnd (length size : Nat)
  | unterminated
  | notUtf8 (fault : Utf8.Fault)
  | undecodable (name : String) (length : Nat)
  | unknownKind (tag : Nat)
  | unknownOrientation (tag : Nat)
  | volatileFlag (value : Nat)
  | childCountOverflow
  | referencedTwice
  | noRoomForRoot (size least : Nat)
  | strayEndpoint (offset : Nat)
  /-- Any other fault, described by its text. -/
  | other (text : String)
deriving DecidableEq

/-- What a handle failed to name. -/
inductive Missing where
  | component (id : Nat)
  | root (id : Nat)
  | dataPath (id : Nat)
  /-- Anything else, described by its text. -/
  | other (what : String)
deriving DecidableEq

/-- What ends the program. -/
inductive Crash where
  | sumOverflow
  | productOverflow
  | startPastEnd (start length : Nat)
  | stopPastEnd (stop length : Nat)
  | stopBeforeStart (start stop : Nat)
  | copyOfOtherLength (source target : Nat)
deriving DecidableEq

/-- A failure of an operation on graphs, regions, exports or imports. -/
inductive Error where
  /-- The file system refused a step; `detail` is its own word on that, if there is one. -/
  | io (step : FileStep) (detail : Option String)
  | memory (text : String)
  | misuse (cause : Misuse)
  | insufficientSpace (requested available : Nat)
  | malformed (offset : Nat) (fault : Malformed)
  | missing (what : Missing)
  | crash (fault : Crash)
deriving DecidableEq

def FileStep.message : FileStep → String
  | .create => "Failed to create region file"
  | .setSize => "Failed to set region file size"
  | .map => "Failed to create memory mapping"
  | .openExisting => "Failed to open region file"
  | .stat => "Failed to stat region file"
  | .mapHeader => "Failed to map region header"
  | .flush => "Failed to flush memory mapping"
  | .publish => "Failed to publish region file"
  | .unspecified => "I/O operation failed"
  | .other context => context

/-- The parameter at fault, and what is wrong with it. -/
def Misuse.message : Misuse → String
  | .emptyPath => "path - Region path cannot be empty"
  | .sizeWithinHeader => "size - Region size must exceed the 8 byte header"
  | .unnamedTarget => "path - Publishing by rename needs a path that names a file"
  | .readOnly => "mode - region is mapped read-only"
  | .interiorNul text => s!"string - {Text.quoted text} contains an interior NUL byte"
  | .exportOrder next current => s!"state - export cannot enter {next.label} from {current.label}"
  | .importOrder next current => s!"state - import cannot enter {next.label} from {current.label}"
  | .other parameter text => s!"{parameter} - {text}"

def Malformed.message : Malformed → String
  | .shorterThanHeader held => s!"file holds {held} bytes, smaller than the header"
  | .lengthMismatch recorded held => s!"header records {recorded} bytes but file holds {held}"
  | .pastEnd length size => s!"{length} bytes at this offset run past the {size} byte region"
  | .unterminated => "string is missing its terminator"
  | .notUtf8 fault => s!"string is not UTF-8: {fault.message}"
  | .undecodable name length =>
    s!"attribute {name} has a {length} byte payload its rule cannot decode"
  | .unknownKind tag => s!"unknown component kind tag {tag}"
  | .unknownOrientation tag => s!"unknown orientation tag {tag}"
  | .volatileFlag value => s!"volatile flag holds {value}"
  | .childCountOverflow => "child count overflows"
  | .referencedTwice => "component is referenced twice"
  | .noRoomForRoot size least =>
    s!"{size} byte region cannot hold a root component of at least {least} bytes"
  | .strayEndpoint offset =>
    s!"data path endpoint {offset} is not a component of this region"
  | .other text => text

def Missing.message : Missing → String
  | .component id => s!"component #{id}"
  | .root id => s!"root component #{id}"
  | .dataPath id => s!"data path #{id}"
  | .other what => what

def Crash.message : Crash → String
  | .sumOverflow => "attempt to add with overflow"
  | .productOverflow => "attempt to multiply with overflow"
  | .startPastEnd start length =>
    s!"range start index {start} out of range for slice of length {length}"
  | .stopPastEnd stop length =>
    s!"range end index {stop} out of range for slice of length {length}"
  | .stopBeforeStart start stop => s!"slice index starts at {start} but ends at {stop}"
  | .copyOfOtherLength source target =>
    s!"copy_from_slice: source slice length ({source}) does not match destination slice length ({target})"

namespace Error

def message : Error → String
  | .io step none => s!"I/O error: {step.message}"
  | .io step (some detail) => s!"I/O error: {step.message}: {detail}"
  | .memory text => s!"Memory error: {text}"
  | .misuse cause => s!"Invalid parameter: {cause.message}"
  | .insufficientSpace requested available =>
    s!"Insufficient space: requested {requested}, available {available}"
  | .malformed offset fault => s!"Format error at offset {offset}: {fault.message}"
  | .missing what => s!"Not found: {what.message}"
  | .crash fault => s!"panicked: {fault.message}"

def label : Error → String
  | .io .. => "Io"
  | .memory _ => "Memory"
  | .misuse _ => "InvalidParameter"
  | .insufficientSpace .. => "InsufficientSpace"
  | .malformed .. => "Format"
  | .missing _ => "NotFound"
  | .crash _ => "Panic"

/-- Whether the error says that the bytes of a region are no topology. -/
def isMalformed : Error → Bool
  | .malformed .. => true
  | _ => false

end Error

end HardwareMap
