import HardwareMap.Error
import HardwareMap.Word

/-!
# Reading a region

A `Reader` reads the bytes of a region at a cursor and moves it.  A single reading step that fails
leaves the cursor where it was; a sequence of steps leaves it at the step that failed.

Offsets are machine words.  What comes from a file is checked by `range`, which reports what lies
outside of the region; the sums and the slices that nothing checks beforehand are `add`, `mul`,
`slice`, `sliceFrom`, `front` and `copy`, and a fault in one of these is a `Crash`.
-/

namespace HardwareMap

/-- A computation on the bytes of a region and a cursor over them. -/
abbrev Reader := ReaderT Bytes (EStateM Error Nat)

namespace Reader

def size : Reader Nat := fun bytes cursor => .ok bytes.length cursor

def position : Reader Nat := fun _ cursor => .ok cursor cursor

def moveTo (offset : Nat) : Reader Unit := fun _ _ => .ok () offset

/-- Fails at a place in the region. -/
def fail {α : Type} (offset : Nat) (fault : Malformed) : Reader α :=
  fun _ cursor => .error (.malformed offset fault) cursor

/-- Ends the program. -/
def crash {α : Type} (fault : Crash) : Reader α := fun _ cursor => .error (.crash fault) cursor

/-! ### Steps that are not checked beforehand -/

def add (m n : Nat) : Reader Nat :=
  match checkedAdd? m n with
  | some sum => return sum
  | none => crash .sumOverflow

def mul (m n : Nat) : Reader Nat :=
  match checkedMul? m n with
  | some product => return product
  | none => crash .productOverflow

/-- The bytes of the region from one offset to another. -/
def slice (start stop : Nat) : Reader Bytes := fun bytes cursor =>
  if stop < start then crash (.stopBeforeStart start stop) bytes cursor
  else if bytes.length < stop then crash (.stopPastEnd stop bytes.length) bytes cursor
  else .ok (bytes.slice start (stop - start)) cursor

def sliceFrom (start : Nat) : Reader Bytes := fun bytes cursor =>
  if bytes.length < start then crash (.startPastEnd start bytes.length) bytes cursor
  else .ok (bytes.drop start) cursor

def front (data : Bytes) (len : Nat) : Reader Bytes :=
  if data.length < len then crash (.stopPastEnd len data.length) else return data.take len

/-- A copy of bytes into a place of a given length. -/
def copy (data : Bytes) (len : Nat) : Reader Bytes :=
  if data.length = len then return data else crash (.copyOfOtherLength data.length len)

/-! ### Reading at an offset and at the cursor -/

/-- The end of `len` bytes at an offset, which have to lie inside the region. -/
def range (offset len : Nat) : Reader Nat := do
  let size ← size
  match checkedAdd? offset len with
  | none => fail offset (.pastEnd len size)
  | some stop => if stop ≤ size then return stop else fail offset (.pastEnd len size)

def bytesAt (offset len : Nat) : Reader Bytes := do slice offset (← range offset len)

def wordAt (α : Type) [Word α] (offset : Nat) : Reader α := do
  let data ← bytesAt offset (Word.width α)
  return Word.ofBytes (← copy data (Word.width α))

def seek (offset : Nat) : Reader Unit := do
  discard (range offset 0)
  moveTo offset

def bytes (len : Nat) : Reader Bytes := do
  let start ← position
  let stop ← range start len
  moveTo stop
  slice start stop

def word (α : Type) [Word α] : Reader α := do
  let start ← position
  let a ← wordAt α start
  moveTo (← add start (Word.width α))
  return a

/-- Reads text up to a zero byte, which it passes over. -/
def text : Reader String := do
  let start ← position
  let tail ← sliceFrom start
  match tail.findIdx? (· == 0) with
  | none => fail start .unterminated
  | some len =>
    let found ← front tail len
    match Utf8.decode? found with
    | none => fail start (.notUtf8 (Utf8.fault found))
    | some text =>
      moveTo (← add (← add start len) 1)
      return text

/-- Runs a reading step a number of times, each on the result of the one before. -/
def iterate {α : Type} (step : α → Reader α) : (count : Nat) → α → Reader α
  | 0, a => return a
  | count + 1, a => do iterate step count (← step a)

end Reader

end HardwareMap
