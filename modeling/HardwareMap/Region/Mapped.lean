import HardwareMap.Region.FileTree
import HardwareMap.Region.Window

/-!
# Regions on a file tree

A `Region` is a mapping of a file object with a cursor of its own.  It is bound to the object and
not to a name: the writer of a region writes under a staging path until the region is published,
which renames the file over the target; whoever mapped the file that was there before keeps it.
-/

namespace HardwareMap

/-- A mapped region. -/
structure Region extends RegionInfo where
  file : FileId
  /-- The path of the file until the region is published. -/
  staging : Option String := none
  cursor : Nat := 0
deriving DecidableEq

namespace Region

/-- The first size that no file can have. -/
def maxFileSize : Nat := UInt64.size / 2 - 1

/-- The contents of a file with a region: its own length, and the region. -/
def fileOf (region : Bytes) : Bytes :=
  Word.toBytes (UInt64.ofNat (headerSize + region.length)) ++ region

/-- Creates the file of a region, or empties the file that is there, and maps it for writing.  Only a
new file gets the permissions of the request.  A path is checked together with that of the top, whose
own name may be the last of it.  A staging file that cannot be sized is removed again. -/
def create (config : RegionConfig) (t : FileTree) : Except Error Region × FileTree :=
  match { config with path := t.resolve config.path }.validate with
  | .error e => (.error e, t)
  | .ok () =>
    let path := config.writePath
    let staged := path != config.path
    match t.truncate? path config.permissions with
    | none => (.error (.io .create none), t)
    | some (file, t) =>
      if maxFileSize ≤ config.size then
        (.error (.io .setSize none), if staged then (t.remove? path).getD t else t)
      else
        (.ok
          { path := config.path
            fileSize := config.size
            access := .write
            file
            staging := if staged then some path else none },
          t.setContents file (fileOf (Bytes.zeros (config.size - headerSize))))

/-- Maps an existing file for reading.  It has to be one that may be read, and its header has to hold
its length. -/
def openExisting (path : String) (t : FileTree) : Except Error Region :=
  match t.lookup? path with
  | none => .error (.io .openExisting none)
  | some .directory => .error (.io .mapHeader none)
  | some (.file file) =>
    let bytes := t.contents file
    if !t.may ownerReads file then .error (.io .openExisting none)
    else if bytes.length < headerSize then .error (.malformed 0 (.shorterThanHeader bytes.length))
    else
      let recorded := Bytes.ofLittleEndian (bytes.take headerSize)
      if recorded = bytes.length then
        .ok { path, fileSize := bytes.length, access := .read, file }
      else .error (.malformed 0 (.lengthMismatch recorded bytes.length))

def isPublished (r : Region) : Bool := r.staging.isNone

def remaining (r : Region) : Nat := r.regionSize - r.cursor

def window (r : Region) (t : FileTree) : Window where
  access := r.access
  bytes := (t.contents r.file).drop headerSize
  cursor := r.cursor

/-- The region bytes of a mapped file, which has to be as long as its header at least. -/
def view (r : Region) (t : FileTree) : Except Error Bytes :=
  let bytes := t.contents r.file
  if bytes.length < headerSize then .error (.crash (.startPastEnd headerSize bytes.length))
  else .ok (bytes.drop headerSize)

/-- Puts the bytes of a window back after the header of the file. -/
def store (r : Region) (w : Window) (t : FileTree) : FileTree :=
  if r.access = .read then t
  else t.setContents r.file ((t.contents r.file).take headerSize ++ w.bytes)

def run {α : Type} (r : Region) (writer : Writer α) (t : FileTree) :
    Except Error α × Region × FileTree :=
  match writer (r.window t) with
  | .ok a w => (.ok a, { r with cursor := w.cursor }, r.store w t)
  | .error e w => (.error e, { r with cursor := w.cursor }, r.store w t)

/-- Writes everything back to the device.  Every reader sees written bytes at once, so nothing but the
answer of the device comes of it; nothing is written back of a region that is mapped for reading. -/
def flush (r : Region) (t : FileTree) : Except Error Unit :=
  if r.access = .write && !t.syncs then .error (.io .flush none) else .ok ()

/-- Flushes the region and renames the staging file over the target.  A region that is published
already stays as it is, and one that cannot be flushed or whose file cannot be renamed stays
unpublished. -/
def publish (r : Region) (t : FileTree) : Except Error Unit × Region × FileTree :=
  match r.flush t with
  | .error e => (.error e, r, t)
  | .ok () =>
    match r.staging with
    | none => (.ok (), r, t)
    | some staging =>
      match t.rename? staging r.path with
      | none => (.error (.io .publish none), r, t)
      | some t => (.ok (), { r with staging := none }, t)

/-- Removes the staging file of a region that is not published. -/
def discard (r : Region) (t : FileTree) : FileTree :=
  match r.staging with
  | none => t
  | some staging => (t.remove? staging).getD t

end Region

end HardwareMap
