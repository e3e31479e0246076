import Std.Data.ExtTreeMap.Lemmas
import MachineVault.Bytes
import MachineVault.Error

/-! A file system below one root directory: files and directories by place, reached along paths.
Each step on it happens as a whole or fails without effect. -/

namespace MachineVault

/-- The segments of a path, as they stand between its slashes. -/
abbrev Path := List String

namespace Path

def text (path : Path) : String := "/".intercalate path

def ofText (s : String) : Path := ((s.split (· = '/')).map toString).toList

/-- A segment that stays where it is. -/
def isIdle (segment : String) : Bool := segment = "" || segment = "."

/-- A path without the idle segments behind its last name. -/
def trimEnd (path : Path) : Path := (path.reverse.dropWhile isIdle).reverse

/-- A path without idle segments at either end. -/
def trim (path : Path) : Path := path.trimEnd.dropWhile isIdle

/-- The path of the directory that the last name is in. -/
def directory (path : Path) : Path := path.trimEnd.dropLast

/-- The directories on the way, outermost first. -/
def parents (path : Path) : List Path :=
  (List.range path.directory.length).map fun n => path.take (n + 1)

end Path

namespace FileSystem

inductive Node
  | directory
  | file (bytes : Bytes)
deriving DecidableEq

/-- Where a node is: the names on the way from the root. What lies beside or above the root has a
double point in front for every directory up. -/
abbrev Place := List String

/-- The directory that a directory is in. -/
def above (place : Place) : Place :=
  if place.all (· = "..") then place ++ [".."] else place.dropLast

/-- The longest name, in bytes of UTF-8. -/
def nameLimit : Nat := 255

/-- The longest path from the root, in bytes of UTF-8. -/
def pathLimit : Nat := 4079

/-- Refuses what cannot be a path, whatever there is in the file system. -/
def validate (path : Path) : Except FileError Unit :=
  if path.text.contains '\x00' then .error .nulCharacter
  else if pathLimit < path.text.utf8ByteSize then .error .nameTooLong
  else .ok ()

end FileSystem

structure FileSystem where
  /-- Everything but the root itself and the directories above it. -/
  nodes : Std.ExtTreeMap FileSystem.Place FileSystem.Node := ∅
deriving DecidableEq

namespace FileSystem

/-- Goes along one segment. This takes a directory to start from. -/
def enter (fs : FileSystem) : Place × Node → String → Except FileError (Place × Node)
  | (_, .file _), _ => .error .notADirectory
  | (place, .directory), segment =>
    if Path.isIdle segment then .ok (place, .directory)
    else if segment = ".." then .ok (above place, .directory)
    else if nameLimit < segment.utf8ByteSize then .error .nameTooLong
    else
      match fs.nodes[place ++ [segment]]? with
      | none => .error .notFound
      | some node => .ok (place ++ [segment], node)

/-- What a path leads to, and where that is. -/
def find (fs : FileSystem) (path : Path) : Except FileError (Place × Node) := do
  validate path
  path.foldlM fs.enter ([], .directory)

/-- The place of a path whose directory exists, and what stands there. -/
def entry (fs : FileSystem) (path : Path) : Except FileError (Place × Option Node) :=
  match fs.find path with
  | .ok (place, node) => .ok (place, some node)
  | .error .notFound => do
    let (place, _) ← fs.find path.dropLast
    return (place ++ path.getLast?.toList, none)
  | .error e => .error e

/-- The contents of a file, and its place. -/
def contents (fs : FileSystem) (path : Path) : Except FileError (Place × Bytes) := do
  match ← fs.find path with
  | (place, .file bytes) => return (place, bytes)
  | (_, .directory) => throw .isADirectory

def read (fs : FileSystem) (path : Path) : Except FileError Bytes := Prod.snd <$> fs.contents path

/-- The contents of a file that may be missing. -/
def readOptional (fs : FileSystem) (path : Path) : Except FileError (Option Bytes) :=
  match fs.read path with
  | .ok bytes => .ok (some bytes)
  | .error .notFound => .ok none
  | .error e => .error e

inductive Step
  /-- Goes on only if the path can be one. -/
  | validate (path : Path)
  /-- Makes a directory unless it exists. -/
  | makeDirectory (path : Path)
  /-- Makes an empty file, or empties the one that exists. -/
  | truncate (path : Path)
  | append (path : Path) (bytes : Bytes)
  /-- Moves a file, in place of a file that stands at the target. -/
  | rename (source target : Path)
  | remove (path : Path)
deriving DecidableEq

def put (fs : FileSystem) (place : Place) (node : Node) : FileSystem := ⟨fs.nodes.insert place node⟩

def perform (fs : FileSystem) : Step → Except FileError FileSystem
  | .validate path => do
    validate path
    return fs
  | .makeDirectory path => do
    match ← fs.entry path with
    | (place, none) => return fs.put place .directory
    | (_, some .directory) => return fs
    | (_, some (.file _)) => throw .notADirectory
  | .truncate path => do
    match ← fs.entry path with
    | (_, some .directory) => throw .isADirectory
    | (place, _) => return fs.put place (.file [])
  | .append path bytes => do
    let (place, before) ← fs.contents path
    return fs.put place (.file (before ++ bytes))
  | .rename source target => do
    let (place, bytes) ← fs.contents source
    match ← fs.entry target with
    | (_, some .directory) => throw .isADirectory
    | (goal, _) => return ⟨(fs.nodes.erase place).insert goal (.file bytes)⟩
  | .remove path => do
    let (place, _) ← fs.contents path
    return ⟨fs.nodes.erase place⟩

/-- Performs steps up to the first that fails; what was done before stays done. -/
def run (fs : FileSystem) : List Step → FileSystem × Except FileError Unit
  | [] => (fs, .ok ())
  | step :: steps =>
    match fs.perform step with
    | .ok fs => fs.run steps
    | .error e => (fs, .error e)

/-- The places of all files below the root. -/
def files (fs : FileSystem) : List Place :=
  (fs.nodes.toList.filter fun (place, node) => place.head? ≠ some ".." ∧ node ≠ .directory).map
    Prod.fst

end FileSystem

end MachineVault
