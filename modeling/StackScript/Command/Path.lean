import StackScript.Text.Blank
import StackScript.Text.Utf8

namespace StackScript.Command

/-! Paths as text, and the places in a tree of directories that they lead to. -/

/-- A directory whose name does not matter: the root, or the directory so many levels above the
working directory. -/
inductive Anchor where
  | root
  | above (levels : Nat)
  deriving DecidableEq, Repr

/-- A place in the tree of directories: names from the outermost on, below a directory. -/
structure Place where
  anchor : Anchor
  names : List String
  deriving DecidableEq, Repr

namespace Place

def root : Place where
  anchor := .root
  names := []

def working : Place where
  anchor := .above 0
  names := []

def child (place : Place) (name : String) : Place :=
  { place with names := place.names ++ [name] }

/-- The directory around a place; the root is its own. -/
def parent (place : Place) : Place :=
  match place.anchor, place.names with
  | .above levels, [] => { anchor := .above (levels + 1), names := [] }
  | anchor, names => { anchor, names := names.dropLast }

@[simp] theorem parent_child (place : Place) (name : String) :
    (place.child name).parent = place := by
  cases place with
  | mk anchor names =>
      cases names with
      | nil => cases anchor <;> rfl
      | cons first rest =>
          have shorter : ((first :: rest) ++ [name]).dropLast = first :: rest :=
            List.dropLast_concat
          cases anchor <;> simpa [child, parent] using shorter

/-- Where one segment of a path leads to. -/
def step (place : Place) (segment : String) : Place :=
  if segment = "." then place
  else if segment = ".." then place.parent
  else place.child segment

def isBelow (place directory : Place) : Bool :=
  place.anchor = directory.anchor && directory.names.isPrefixOf place.names &&
    directory.names.length < place.names.length

end Place

/-- A path taken apart: where it starts, the segments between its slashes, and whether a slash
follows the last of them. Several slashes count as one. -/
structure Path where
  start : Place
  segments : List String
  endsInSlash : Bool
  deriving DecidableEq, Repr

namespace Path

def ofString (text : String) : Path where
  start := if text.toList.head? = some '/' then .root else .working
  segments :=
    ((Text.splitAll '/' text.toList).filter fun segment => !segment.isEmpty).map String.ofList
  endsInSlash := text.toList.getLast? = some '/'

/-- Where a path leads to if all that it passes through are directories. -/
def place (path : Path) : Place :=
  path.segments.foldl Place.step path.start

end Path

/-- The directory part of a path with its slash, and the name behind it. -/
def splitPath (path : List Char) : List Char × List Char :=
  let name := (path.reverse.takeWhile (· != '/')).reverse
  (path.take (path.length - name.length), name)

/-- A name without its extension, which starts at the last dot unless the name starts there. -/
def stem (name : List Char) : List Char :=
  let extension := name.reverse.takeWhile (· != '.')
  let before := name.take (name.length - extension.length - 1)
  if extension.length < name.length && !before.isEmpty then before else name

/-- The path of a file with another extension. A name that has two dots in front and no more loses
its extension and gets no other, because two dots alone are no name. -/
def withExtension (path extension : String) : String :=
  let (directory, name) := splitPath path.toList
  let stem := stem name
  if name.isEmpty || name = ['.', '.'] then path
  else if stem = ['.'] then String.ofList (directory ++ ['.', '.'])
  else String.ofList (directory ++ stem ++ '.' :: extension.toList)

end StackScript.Command
