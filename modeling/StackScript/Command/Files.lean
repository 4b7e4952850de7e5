import StackScript.Command.Path

namespace StackScript.Command

/-! Files in a tree of directories, read and written by path. -/

inductive FileError where
  | notFound
  | notDirectory
  | isDirectory
  | nameTooLong
  | permissionDenied
  /-- What a real file system says. -/
  | other (text : String)
  deriving DecidableEq, Repr

def FileError.message : FileError → String
  | .notFound => "No such file or directory (os error 2)"
  | .permissionDenied => "Permission denied (os error 13)"
  | .notDirectory => "Not a directory (os error 20)"
  | .isDirectory => "Is a directory (os error 21)"
  | .nameTooLong => "File name too long (os error 36)"
  | .other text => text

/-- Files at their places, in the order in which they were created. -/
structure Files where
  entries : List (Place × List UInt8)
  deriving DecidableEq, Repr

/-- What there is at a place. -/
inductive Node where
  | directory
  | file (bytes : List UInt8)
  deriving DecidableEq, Repr

/-- Directories that every system has below its root. -/
def systemDirectories : List String :=
  ["bin", "boot", "dev", "etc", "home", "lib", "media", "mnt", "opt", "proc", "root", "run", "sbin",
    "srv", "sys", "tmp", "usr", "var"]

/-- A file that is always empty, whatever is written to it. -/
def nullDevice : Place :=
  (Place.root.child "dev").child "null"

/-- The most bytes of one segment of a path. -/
def maxSegment : Nat := 255

/-- The most bytes of a path. -/
def maxPath : Nat := 4095

def byteLength (text : String) : Nat :=
  (Text.Utf8.encode text.toList).length

namespace Files

def ofList (files : List (String × List UInt8)) : Files where
  entries := files.map fun file => ((Path.ofString file.1).place, file.2)

/-- The directories are those that are known, and those that hold a file. -/
def isDirectory (files : Files) (place : Place) : Bool :=
  place.names.isEmpty || systemDirectories.any (fun name => place = Place.root.child name) ||
    files.entries.any fun entry => entry.1.isBelow place

def node? (files : Files) (place : Place) : Option Node :=
  if place = nullDevice then some (.file [])
  else if files.isDirectory place then some .directory
  else (files.entries.lookup place).map .file

/-- Where a segment leads to from a directory; there need not be anything yet. -/
def step (directory : Place) (segment : String) : Except FileError Place :=
  if maxSegment < byteLength segment then .error .nameTooLong
  else .ok (directory.step segment)

/-- Follows segments that have to lead to directories. -/
def enter (files : Files) : Place → List String → Except FileError Place
  | directory, [] => .ok directory
  | directory, segment :: rest => do
      let place ← step directory segment
      match files.node? place with
      | some .directory => enter files place rest
      | some (.file _) => .error .notDirectory
      | none => .error .notFound

/-- The directory in which the last segment of a path is looked up. -/
def directoryOf (files : Files) (path : String) : Except FileError Place :=
  if path.isEmpty then .error .notFound
  else if maxPath < byteLength path then .error .nameTooLong
  else files.enter (Path.ofString path).start (Path.ofString path).segments.dropLast

/-- The content of a file. A slash at the end of a path asks for a directory. -/
def read (files : Files) (path : String) : Except FileError (List UInt8) := do
  let directory ← files.directoryOf path
  match (Path.ofString path).segments.getLast? with
  | none => .error .isDirectory
  | some segment =>
      let place ← step directory segment
      match files.node? place with
      | some .directory => .error .isDirectory
      | some (.file bytes) =>
          if (Path.ofString path).endsInSlash then .error .notDirectory else .ok bytes
      | none => .error .notFound

/-- The files after one of them got a new content. -/
def put (files : Files) (place : Place) (bytes : List UInt8) : Files :=
  if place = nullDevice then files
  else if (files.entries.lookup place).isSome then
    { entries := files.entries.map fun entry =>
        if entry.1 = place then (place, bytes) else entry }
  else { entries := files.entries ++ [(place, bytes)] }

/-- Creates or replaces a file in a directory that exists. -/
def write (files : Files) (path : String) (bytes : List UInt8) : Except FileError Files := do
  let directory ← files.directoryOf path
  match (Path.ofString path).segments.getLast? with
  | none => .error .isDirectory
  | some segment =>
      if (Path.ofString path).endsInSlash then .error .isDirectory
      else
        let place ← step directory segment
        match files.node? place with
        | some .directory => .error .isDirectory
        | _ => .ok (files.put place bytes)

end Files

end StackScript.Command
