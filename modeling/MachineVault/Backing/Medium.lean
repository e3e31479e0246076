import MachineVault.Backing.Files
import MachineVault.Backing.Memory

/-! A backing of which each half is in memory or in files of one file system. -/

namespace MachineVault

inductive PartitionStore
  | memory (partitions : MemoryPartitions)
  | files (files : PartitionFiles)
deriving DecidableEq

inductive TableStore
  | memory (table : MemoryTable)
  | file (file : TableFile)
deriving DecidableEq

structure Medium where
  files : FileSystem := {}
  partitions : PartitionStore := .memory {}
  table : TableStore := .memory {}
deriving DecidableEq

namespace Medium

/-- Both halves in files. -/
def inFiles (root table : Path) : Medium where
  partitions := .files ⟨root⟩
  table := .file ⟨table⟩

def withFiles (m : Medium) (call : Logged (FileSystem × Except Error Unit)) :
    Logged (Medium × Except Error Unit) :=
  (fun (files, result) => ({ m with files }, result)) <$> call

def get (m : Medium) (partition : Partition) (tag : String) : Except Error (Option Bytes) :=
  match m.partitions with
  | .memory partitions => .ok (partitions.get? partition tag)
  | .files p => p.get m.files partition tag

def commit (m : Medium) (partition : Partition) (entries : List (String × Bytes)) :
    Logged (Medium × Except Error Unit) :=
  match m.partitions with
  | .memory partitions =>
    return ({ m with partitions := .memory (partitions.commit partition entries) }, .ok ())
  | .files p => m.withFiles (p.commit m.files partition entries)

/-- Sets one tag. In files this is a commit of one entry. -/
def set (m : Medium) (partition : Partition) (tag : String) (bytes : Bytes) :
    Logged (Medium × Except Error Unit) :=
  match m.partitions with
  | .memory partitions =>
    return ({ m with partitions := .memory (partitions.set partition tag bytes) }, .ok ())
  | .files p => m.withFiles (p.commit m.files partition [(tag, bytes)])

def loadTable (m : Medium) : Except Error (Option CacheTable) :=
  match m.table with
  | .memory table => .ok table.table
  | .file t => t.load m.files

def saveTable (m : Medium) (table : CacheTable) : Logged (Medium × Except Error Unit) :=
  match m.table with
  | .memory t => return ({ m with table := .memory (t.save table) }, .ok ())
  | .file t => m.withFiles (t.save m.files table)

instance : Backing Medium := ⟨get, commit, loadTable, saveTable⟩

end Medium

end MachineVault
