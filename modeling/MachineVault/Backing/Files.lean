import MachineVault.Backing.Basic
import MachineVault.FileSystem.Replace
import MachineVault.Frame
import MachineVault.Sections

/-! Backings in files: one framed file for each partition with all its tags, and one for the
identifier table. Every write replaces a whole file. -/

namespace MachineVault

def partitionMagic : Magic := ⟨[0x4D, 0x53, 0x54, 0x50], rfl⟩

def tableMagic : Magic := ⟨[0x4D, 0x53, 0x54, 0x43], rfl⟩

/-- The outcome of a call on the file system as a call of a store. -/
def fileOutcome {α : Type} (outcome : Except FileError α) : Except Error α :=
  outcome.mapError .file

/-- Replaces a file by a frame around a payload. -/
def FileSystem.replaceFramed (fs : FileSystem) (magic : Magic) (path : Path) (payload : Bytes) :
    FileSystem × Except Error Unit :=
  match Frame.wrap magic payload with
  | .error e => (fs, .error (.format e))
  | .ok frame =>
    let (fs, outcome) := fs.replace path frame
    (fs, fileOutcome outcome)

/-- The payload of a framed file that may be missing. -/
def FileSystem.readFramed (fs : FileSystem) (magic : Magic) (path : Path) :
    Except Error (Option Bytes) := do
  match ← fileOutcome (fs.readOptional path) with
  | none => return none
  | some frame => return some (← (Frame.unwrap magic frame).mapError (.persistence ∘ .frame))

/-- A directory of partition files. -/
structure PartitionFiles where
  root : Path
deriving DecidableEq

namespace PartitionFiles

/-- Names that stand for a directory of their own. -/
def isUsable (world : String) : Bool :=
  world ≠ "" && world ≠ "." && world ≠ ".." &&
    world.toList.all fun c => c ≠ '/' && c ≠ '\\' && c ≠ '\x00'

def fileName (chunk : ChunkPos) : String := s!"c.{chunk.x}.{chunk.z}.mdat"

/-- The file of a partition. -/
def path (p : PartitionFiles) (partition : Partition) : Except Error Path :=
  if isUsable partition.world then .ok (p.root ++ [partition.world, fileName partition.chunk])
  else .error (.precondition (.unusableWorldName partition.world))

def sections (fs : FileSystem) (path : Path) : Except Error Sections := do
  match ← fs.readFramed partitionMagic path with
  | none => return ∅
  | some payload => (Sections.decode payload).mapError .format

def get (p : PartitionFiles) (fs : FileSystem) (partition : Partition) (tag : String) :
    Except Error (Option Bytes) := do
  return (← sections fs (← p.path partition))[tag]?

/-- The file and its new payload. -/
def change (p : PartitionFiles) (fs : FileSystem) (partition : Partition)
    (entries : List (String × Bytes)) : Except Error (Path × Bytes) := do
  let path ← p.path partition
  let sections ← sections fs path
  return (path, ← (sections.insertAll entries).encode.mapError .format)

/-- Puts entries beside the other tags of a partition. -/
def commit (p : PartitionFiles) (fs : FileSystem) (partition : Partition)
    (entries : List (String × Bytes)) : Logged (FileSystem × Except Error Unit) := do
  match p.change fs partition entries with
  | .error e => return (fs, .error e)
  | .ok (path, payload) =>
    match fs.replaceFramed partitionMagic path payload with
    | (fs, .error e) => return (fs, .error e)
    | (fs, .ok ()) => do
      Logged.event (.partitionCommitted partition entries.length path.text)
      return (fs, .ok ())

end PartitionFiles

/-- The file of the identifier table. -/
structure TableFile where
  path : Path
deriving DecidableEq

namespace TableFile

def defaultName : String := "machine_cache.bin"

def load (t : TableFile) (fs : FileSystem) : Except Error (Option CacheTable) := do
  match ← fs.readFramed tableMagic t.path with
  | none => return none
  | some payload => return some (← CacheTable.decode payload)

def save (t : TableFile) (fs : FileSystem) (table : CacheTable) :
    Logged (FileSystem × Except Error Unit) := do
  match fs.replaceFramed tableMagic t.path table.encode with
  | (fs, .error e) => return (fs, .error e)
  | (fs, .ok ()) => do
    Logged.event (.tableSaved table.entries.length t.path.text)
    return (fs, .ok ())

end TableFile

end MachineVault
