import TypeStubs.FileTree.Path

/-! Directories and files as they are seen from a working directory. -/

namespace TypeStubs

/-- Where a directory or file is: the names on the way to it from the working directory. A place
below a root starts with the root, and a place above the working directory with two dots for each
step up. -/
abbrev Place := List String

/-- The directories and files made so far. The working directory, the directories around it and the
roots are always there. -/
structure FileTree where
  directories : List Place := []
  files : List (Place × String) := []
deriving Inhabited

inductive FileError where
  | missing
  | notDirectory
  | isDirectory
  | alreadyThere
  | nullCharacter
  | tooLong
deriving DecidableEq

namespace FileTree

def nameLimit : Nat := 255

def pathLimit : Nat := 4095

def accept (path : Path) : Except FileError Unit := do
  if path.text.toList.contains '\x00' then throw .nullCharacter
  if pathLimit < path.text.utf8ByteSize then throw .tooLong

/-- The working directory or one around it. -/
def isAround (place : Place) : Bool := place.all (· = "..")

/-- The directory around a place. That of a root is the root. -/
def enclosing (place : Place) : Place :=
  if isAround place then place ++ [".."]
  else if place.length = 1 && place.head?.any (hasFront "/") then place
  else place.dropLast

def hasDirectory (t : FileTree) (place : Place) : Bool :=
  isAround place || place = ["/"] || place = ["//"] || place ∈ t.directories

def hasFile (t : FileTree) (place : Place) : Bool := t.files.any (·.1 = place)

/-- Follows names from a directory. Two dots lead back to the enclosing directory. -/
def walk (t : FileTree) : Place → List String → Except FileError Place
  | place, [] => .ok place
  | place, name :: rest =>
    if t.hasFile place then .error .notDirectory
    else if !t.hasDirectory place then .error .missing
    else if name = ".." then t.walk (enclosing place) rest
    else if nameLimit < name.utf8ByteSize then .error .tooLong
    else t.walk (place ++ [name]) rest

def start (path : Path) : Place := if path.root = "" then [] else [path.root]

def locate (t : FileTree) (path : Path) : Except FileError Place := do
  accept path
  t.walk (start path) path.parts

/-- A path leads to a directory. The question has no answer for a path that is too long. -/
def isDirectory (t : FileTree) (path : Path) : Except FileError Bool :=
  match t.locate path with
  | .ok place => .ok (t.hasDirectory place)
  | .error .tooLong => .error .tooLong
  | .error _ => .ok false

/-- Makes a directory inside one that is there. A directory that is already there is left as it
is. -/
def makeDirectory (t : FileTree) (path : Path) : Except FileError FileTree := do
  let place ← t.locate path
  if t.hasDirectory place then return t
  if t.hasFile place then throw .alreadyThere
  return { t with directories := t.directories ++ [place] }

def writeFile (t : FileTree) (path : Path) (text : String) : Except FileError FileTree := do
  let place ← t.locate path
  if t.hasDirectory place then throw .isDirectory
  return { t with files := t.files.filter (·.1 ≠ place) ++ [(place, text)] }

end FileTree

end TypeStubs
