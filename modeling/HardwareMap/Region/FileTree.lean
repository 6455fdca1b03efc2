import HardwareMap.Bytes
import HardwareMap.Region.Path
import HardwareMap.SortedMap
import HardwareMap.Text.Utf8

/-!
# File trees

A file tree names files and directories.  Names lead to file objects: renaming or replacing a file
changes what a name leads to, while whoever holds the object keeps its bytes.  File objects are
numbered and never reused, and each has one name at most.

All files belong to the user whose process works on the tree.  Whether it may open one is said by the
permission bits of the owner, unless the process may open everything.
-/

namespace HardwareMap

abbrev FileId := Nat

/-- The names that lead from the top of a tree to an entry. -/
abbrev Location := List String

/-- What a name leads to. -/
inductive Entry where
  | file (id : FileId)
  | directory
deriving DecidableEq

/-- The permission bit that lets the owner of a file read it. -/
def ownerReads : UInt32 := 0o400

/-- The permission bit that lets the owner of a file write it. -/
def ownerWrites : UInt32 := 0o200

structure FileObject where
  bytes : Bytes := []
  permissions : UInt32 := ownerReads ||| ownerWrites
deriving DecidableEq

/-- Names and the file objects behind them. -/
structure FileTree where
  /-- The path of the top of the tree, where every path that is followed in it starts. -/
  top : String := ""
  /-- Whether the process may open every file, whatever its permissions. -/
  privileged : Bool := false
  /-- Whether the device takes what is flushed to it. -/
  syncs : Bool := true
  /-- Every entry below the top, which is a directory itself. -/
  entries : SortedMap Location Entry := ∅
  /-- The file objects, named or not. -/
  files : Array FileObject := #[]
  /-- A name never leads to a file object that is not there. -/
  named : ∀ location id, (location, .file id) ∈ entries.entries → id < files.size := by
    intro _ _ h
    cases h
  /-- A file object never has two names. -/
  unaliased : ∀ location other id, (location, .file id) ∈ entries.entries →
      (other, .file id) ∈ entries.entries → location = other := by
    intro _ _ _ h
    cases h
deriving DecidableEq

namespace FileTree

def maxNameSize : Nat := 255

/-- The longest path, in bytes, counted together with the path of the top. -/
def maxPathSize : Nat := 4095

def isName (name : String) : Bool :=
  !Utf8.hasNul name && (Utf8.encode name).length ≤ maxNameSize

def resolve (t : FileTree) (path : String) : String := Path.resolve t.top path

def isPath (t : FileTree) (path : String) : Bool :=
  (Utf8.encode (t.resolve path)).length ≤ maxPathSize

def occupant? (t : FileTree) (location : Location) : Option Entry :=
  if location = [] then some .directory else t.entries.get? location

theorem mem_of_occupant? (t : FileTree) {location : Location} {id : FileId}
    (h : t.occupant? location = some (.file id)) : (location, .file id) ∈ t.entries.entries := by
  unfold occupant? at h
  split at h
  · cases h
  · exact SortedMap.mem_of_get? h

theorem lt_of_occupant? (t : FileTree) {location : Location} {id : FileId}
    (h : t.occupant? location = some (.file id)) : id < t.files.size :=
  t.named location id (t.mem_of_occupant? h)

theorem eq_of_occupant? (t : FileTree) {location other : Location} {id : FileId}
    (h : t.occupant? location = some (.file id)) (hother : t.occupant? other = some (.file id)) :
    location = other :=
  t.unaliased location other id (t.mem_of_occupant? h) (t.mem_of_occupant? hother)

def isDirectory (t : FileTree) (location : Location) : Bool :=
  t.occupant? location == some .directory

/-- Follows the segments of a path from a location.  Each has to start in a directory, but the last
name need not lead anywhere yet. -/
def follow (t : FileTree) : List String → Location → Option Location
  | [], here => some here
  | name :: rest, here =>
    if !t.isDirectory here then none
    else if name = "" || name = "." then t.follow rest here
    else if name = ".." then if here = [] then none else t.follow rest here.dropLast
    else if isName name then t.follow rest (here ++ [name])
    else none

/-- The location that a path leads to.  The empty path leads nowhere, and a path that starts with a
slash leads out of the tree. -/
def locate? (t : FileTree) (path : String) : Option Location :=
  if !t.isPath path then none
  else
    match Path.segments path with
    | [] | "" :: _ => none
    | segments => t.follow segments []

def lookup? (t : FileTree) (path : String) : Option Entry :=
  (t.locate? path).bind t.occupant?

def object (t : FileTree) (id : FileId) : FileObject := (t.files[id]?).getD {}

def contents (t : FileTree) (id : FileId) : Bytes := (t.object id).bytes

/-- The file that a path leads to. -/
def file? (t : FileTree) (path : String) : Option FileObject :=
  match t.lookup? path with
  | some (.file id) => some (t.object id)
  | _ => none

/-- Whether permissions let the process do with a file what one of their bits stands for. -/
def allows (t : FileTree) (permissions bit : UInt32) : Bool :=
  t.privileged || permissions &&& bit != 0

def may (t : FileTree) (bit : UInt32) (id : FileId) : Bool := t.allows (t.object id).permissions bit

/-- The bytes of the file that a path leads to, if it may be read. -/
def read? (t : FileTree) (path : String) : Option Bytes :=
  match t.lookup? path with
  | some (.file id) => if t.may ownerReads id then some (t.contents id) else none
  | _ => none

def setContents (t : FileTree) (id : FileId) (bytes : Bytes) : FileTree :=
  { t with
    files := t.files.modify id fun file => { file with bytes }
    named := by simpa using t.named }

def addFile (t : FileTree) (location : Location) (file : FileObject) : FileId × FileTree :=
  let id := t.files.size
  -- the new file is none of those that have names
  have hnew : ∀ other, (other, Entry.file id) ∉ t.entries.entries := fun other hother =>
    Nat.lt_irrefl _ (t.named other id hother)
  (id,
    { t with
      entries := t.entries.insert location (.file id)
      files := t.files.push file
      named := fun place other h => by
        rw [Array.size_push]
        rcases SortedMap.mem_setEntry h with heq | hmem
        · cases heq
          exact Nat.lt_succ_self _
        · exact Nat.lt_succ_of_lt (t.named place other hmem)
      unaliased := fun place other file hplace hother => by
        rcases SortedMap.mem_setEntry hplace with heq | hplace <;>
          rcases SortedMap.mem_setEntry hother with heq' | hother
        · rw [(Prod.mk.inj heq).1, (Prod.mk.inj heq').1]
        · cases heq
          exact absurd hother (hnew other)
        · cases heq'
          exact absurd hplace (hnew place)
        · exact t.unaliased place other file hplace hother })

def unlink (t : FileTree) (location : Location) : FileTree :=
  { t with
    entries := t.entries.erase location
    named := fun place id h => t.named place id (List.mem_filter.1 h).1
    unaliased := fun place other id hplace hother =>
      t.unaliased place other id (List.mem_filter.1 hplace).1 (List.mem_filter.1 hother).1 }

def addDirectory (t : FileTree) (location : Location) : FileTree :=
  have hkept : ∀ {place : Location} {id : FileId},
      (place, .file id) ∈ (t.entries.insert location .directory).entries →
        (place, .file id) ∈ t.entries.entries := fun h =>
    (SortedMap.mem_setEntry h).resolve_left fun heq => by cases heq
  { t with
    entries := t.entries.insert location .directory
    named := fun place id h => t.named place id (hkept h)
    unaliased := fun place other id hplace hother =>
      t.unaliased place other id (hkept hplace) (hkept hother) }

/-- Opens a file for reading and writing and empties it.  A file that is there keeps its permissions,
which have to allow both; one that is not there is added with those that are given. -/
def truncate? (t : FileTree) (path : String) (permissions : UInt32) : Option (FileId × FileTree) :=
  match t.locate? path with
  | none => none
  | some location =>
    match t.occupant? location with
    | some .directory => none
    | some (.file id) =>
      if t.may ownerReads id && t.may ownerWrites id then some (id, t.setContents id []) else none
    | none => some (t.addFile location { bytes := [], permissions })

/-- Lets a path lead to a new file with these bytes, whatever file it led to before. -/
def write? (t : FileTree) (path : String) (bytes : Bytes) : Option FileTree :=
  match t.locate? path with
  | none => none
  | some location =>
    if t.isDirectory location then none else some (t.addFile location { bytes }).2

def remove? (t : FileTree) (path : String) : Option FileTree :=
  match t.locate? path with
  | none => none
  | some location =>
    match t.occupant? location with
    | some (.file _) => some (t.unlink location)
    | _ => none

def isBare (t : FileTree) (location : Location) : Bool :=
  t.entries.keys.all fun other => other == location || !location.isPrefixOf other

def removeDirectory? (t : FileTree) (path : String) : Option FileTree :=
  match t.locate? path with
  | none | some [] => none
  | some location =>
    if t.isDirectory location && t.isBare location then some (t.unlink location) else none

/-- Adds the directories along a list of names that are not there yet. -/
def makeDirectories (t : FileTree) : List String → Location → Option FileTree
  | [], _ => some t
  | name :: rest, here =>
    let next := here ++ [name]
    match t.occupant? next with
    | some .directory => t.makeDirectories rest next
    | some (.file _) => none
    | none =>
      if isName name then (t.addDirectory next).makeDirectories rest next else none

def makeDirectory? (t : FileTree) (path : String) : Option FileTree :=
  if (Path.names path).contains ".." || !t.isPath path then none
  else t.makeDirectories (Path.names path) []

/-- Lets another location lead to what a location leads to, and that one nowhere. -/
def moveFile (t : FileTree) (source target : Location) (id : FileId)
    (h : t.occupant? source = some (.file id)) : FileTree :=
  -- the file has lost its only name
  have hfree : ∀ other, (other, Entry.file id) ∉ (t.entries.erase source).entries := by
    intro other hother
    obtain ⟨hother, hne⟩ := List.mem_filter.1 hother
    obtain rfl := t.unaliased other source id hother (t.mem_of_occupant? h)
    simp at hne
  { t with
    entries := (t.entries.erase source).insert target (.file id)
    named := fun place other hmem => by
      rcases SortedMap.mem_setEntry hmem with heq | hkept
      · cases heq
        exact t.lt_of_occupant? h
      · exact t.named place other (List.mem_filter.1 hkept).1
    unaliased := fun place other file hplace hother => by
      rcases SortedMap.mem_setEntry hplace with heq | hplace <;>
        rcases SortedMap.mem_setEntry hother with heq' | hother
      · rw [(Prod.mk.inj heq).1, (Prod.mk.inj heq').1]
      · cases heq
        exact absurd hother (hfree other)
      · cases heq'
        exact absurd hplace (hfree place)
      · exact t.unaliased place other file (List.mem_filter.1 hplace).1 (List.mem_filter.1 hother).1 }

/-- Moves every entry at or below one location to another. -/
def moveEntries (t : FileTree) (source target : Location) : FileTree :=
  let moved := t.entries.filter fun location _ => source.isPrefixOf location
  let kept := t.entries.filter fun location _ => !source.isPrefixOf location
  let entries := kept.insertAll (moved.entries.map fun entry =>
    (target ++ entry.1.drop source.length, entry.2))
  have horigin : ∀ {place : Location} {id : FileId}, (place, .file id) ∈ entries.entries →
      ∃ origin, (origin, .file id) ∈ t.entries.entries ∧
        place = if source.isPrefixOf origin then target ++ origin.drop source.length else origin := by
    intro place id h
    rcases SortedMap.mem_insertAll h with hmoved | hkept
    · obtain ⟨⟨origin, _⟩, hentry, heq⟩ := List.mem_map.1 hmoved
      obtain ⟨hentry, hprefix⟩ := List.mem_filter.1 hentry
      cases heq
      exact ⟨origin, hentry, by rw [if_pos hprefix]⟩
    · obtain ⟨hentry, hout⟩ := List.mem_filter.1 hkept
      rw [Bool.not_eq_true'] at hout
      exact ⟨place, hentry, by rw [hout, if_neg Bool.false_ne_true]⟩
  { t with
    entries
    named := fun place id h => by
      obtain ⟨origin, hentry, -⟩ := horigin h
      exact t.named origin id hentry
    unaliased := fun place other id hplace hother => by
      obtain ⟨origin, hentry, rfl⟩ := horigin hplace
      obtain ⟨origin', hentry', rfl⟩ := horigin hother
      rw [t.unaliased origin origin' id hentry hentry'] }

/-- Renames an entry.  A file takes the place of a file, a directory that of an empty directory
outside of it, and nothing takes the place of an entry of the other sort.  If both paths lead to one
file, or to one directory, nothing happens. -/
def rename? (t : FileTree) (source target : String) : Option FileTree :=
  match t.locate? source, t.locate? target with
  | some source, some target =>
    match h : t.occupant? source, t.occupant? target with
    | some (.file id), some (.file other) =>
      if id = other then some t else some (t.moveFile source target id h)
    | some (.file id), none => some (t.moveFile source target id h)
    | some .directory, none =>
      if source.isPrefixOf target then none else some (t.moveEntries source target)
    | some .directory, some .directory =>
      if source = target then some t
      else if source.isPrefixOf target || !t.isBare target then none
      else some (t.moveEntries source target)
    | _, _ => none
  | _, _ => none

/-- The length of the file at each location below the top; none for a directory. -/
def listing (t : FileTree) : List (Location × Option Nat) :=
  t.entries.entries.map fun
    | (location, .file id) => (location, some (t.contents id).length)
    | (location, .directory) => (location, none)

end FileTree

end HardwareMap
