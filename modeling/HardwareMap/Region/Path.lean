/-!
# Paths of files

A path is a text of names between slashes.  An empty name and a single dot lead nowhere, two dots
lead to the directory above.
-/

namespace HardwareMap.Path

def cut : List Char → List (List Char)
  | [] => [[]]
  | c :: rest =>
    if c = '/' then [] :: cut rest
    else
      match cut rest with
      | [] => [[c]]
      | name :: names => (c :: name) :: names

def segments (path : String) : List String := (cut path.toList).map String.ofList

def names (path : String) : List String :=
  (segments path).filter fun name => name != "" && name != "."

/-- The name of the file that a path leads to; none for a path that ends in the directory above, or
leads nowhere.  Slashes and single dots at the end do not count. -/
def fileName? (path : String) : Option String :=
  match (names path).getLast? with
  | none => none
  | some name => if name = ".." then none else some name

/-- Whether a path starts at the root of all directories, wherever it is followed from. -/
def isAbsolute (path : String) : Bool := path.toList.head? == some '/'

/-- The path that leads from anywhere to where `path` leads from the directory at `top`.  The empty
path leads nowhere and stays empty. -/
def resolve (top path : String) : String :=
  if top = "" || path = "" || isAbsolute path then path else top ++ "/" ++ path

/-- What is appended to the path of a file while it is being written. -/
def stagingSuffix : String := ".partial"

/-- The path under which a file is written before it is published. -/
def staging (path : String) : String := path ++ stagingSuffix

end HardwareMap.Path
