/-!
# Files

The little that the command line needs of a file system, and a file system in memory that provides
it.
-/

namespace PointsTo.CommandLine

/-- Why a file cannot be read or written. -/
inductive FileError where
  | notFound
  | notDirectory
  | isDirectory
  | notText
  | other (text : String)
deriving DecidableEq

def FileError.message : FileError → String
  | notFound => "No such file or directory (os error 2)"
  | notDirectory => "Not a directory (os error 20)"
  | isDirectory => "Is a directory (os error 21)"
  | notText => "stream did not contain valid UTF-8"
  | other text => text

/-- Access to files by their paths. Writing creates a file or replaces it. -/
class Files (m : Type → Type) where
  readBytes : String → m (Except FileError ByteArray)
  writeText : String → String → m (Except FileError Unit)

/-- The text of a file. -/
def readText {m : Type → Type} [Monad m] [Files m] (path : String) : m (Except FileError String) :=
  do
  match ← Files.readBytes path with
  | .error e => return .error e
  | .ok bytes =>
    match String.fromUTF8? bytes with
    | some text => return .ok text
    | none => return .error .notText

/-! ## Places -/

/-- Where the names of a path start: some levels above the working directory, or at the root. -/
inductive Base where
  | working (above : Nat)
  | root
deriving DecidableEq

/-- A place in a file system, whether there is something or not. -/
structure Place where
  base : Base := .working 0
  names : List String := []
deriving DecidableEq

def Base.parent : Base → Base
  | working above => working (above + 1)
  | root => root

/-- The place that one part of a path leads to from a directory. -/
def Place.enter (place : Place) : String → Place
  | "." => place
  | ".." =>
    match place.names with
    | [] => { place with base := place.base.parent }
    | names => { place with names := names.dropLast }
  | name => { place with names := place.names ++ [name] }

/-- A path cut at its slashes. -/
structure Path where
  start : Place
  parts : List String
  /-- whether a slash stands at the end -/
  closed : Bool
deriving DecidableEq

/-- The path of a text that is not empty. -/
def Path.of? (text : String) : Option Path :=
  match text.toList with
  | [] => none
  | c :: cs =>
    some
      { start := if c = '/' then { base := .root } else {}
        parts := (text.splitOn "/").filter (· ≠ "")
        closed := (c :: cs).getLast? = some '/' }

/-! ## A file system in memory -/

/-- Files and directories at and below the working directory. Nothing is known of what lies outside,
except that the directories above the working directory and the root are there. -/
structure Directory where
  files : List (Place × ByteArray) := []
  subdirs : List Place := []

namespace Directory

variable (d : Directory)

/-- Whether a place is a directory. What holds a file or a directory is one. -/
def isDir (place : Place) : Bool :=
  place.names.isEmpty || place ∈ d.subdirs ||
    (d.subdirs ++ d.files.map Prod.fst).any fun inner =>
      inner.base = place.base && inner ≠ place && place.names.isPrefixOf inner.names

def file? (place : Place) : Option ByteArray := d.files.lookup place

/-- Follows the parts of a path. All that comes before a part must be a directory. -/
def follow : List String → Place → Except FileError Place
  | [], place => .ok place
  | part :: parts, place =>
    if d.isDir place then follow parts (place.enter part)
    else if (d.file? place).isSome then .error .notDirectory
    else .error .notFound

def resolve (text : String) : Except FileError (Path × Place) :=
  match Path.of? text with
  | none => .error .notFound
  | some path => (d.follow path.parts path.start).map (path, ·)

def readBytes (text : String) : Except FileError ByteArray := do
  let (path, place) ← d.resolve text
  if d.isDir place then throw .isDirectory
  match d.file? place with
  | none => throw .notFound
  | some bytes => if path.closed then throw .notDirectory else return bytes

/-- A slash at the end asks for a directory, which cannot be written. -/
def write (text content : String) : Except FileError Directory := do
  let (path, place) ← d.resolve text
  if path.closed || d.isDir place then throw .isDirectory
  return { d with files := (place, content.toUTF8) :: d.files.filter (·.1 ≠ place) }

instance : Files (StateM Directory) where
  readBytes path := return (← get).readBytes path
  writeText path text := do
    match (← get).write path text with
    | .ok d => set d; return .ok ()
    | .error e => return .error e

end Directory

end PointsTo.CommandLine
