import MachineVault.Backing.Basic
import MachineVault.Sections

/-! Backings in memory, which count what they are asked for. No call of theirs fails. -/

namespace MachineVault

structure MemoryPartitions where
  sections : Std.ExtTreeMap Partition Sections := ∅
  commits : Nat := 0
deriving DecidableEq

namespace MemoryPartitions

def get? (m : MemoryPartitions) (partition : Partition) (tag : String) : Option Bytes :=
  m.sections[partition]?.bind fun sections => sections[tag]?

def update (m : MemoryPartitions) (partition : Partition) (entries : List (String × Bytes)) :
    MemoryPartitions :=
  { m with sections :=
      m.sections.insert partition (((m.sections[partition]?).getD ∅).insertAll entries) }

/-- Sets one tag; this is no commit. -/
def set (m : MemoryPartitions) (partition : Partition) (tag : String) (bytes : Bytes) :
    MemoryPartitions :=
  m.update partition [(tag, bytes)]

def commit (m : MemoryPartitions) (partition : Partition) (entries : List (String × Bytes)) :
    MemoryPartitions :=
  { m.update partition entries with commits := m.commits + 1 }

def partitionCount (m : MemoryPartitions) : Nat := m.sections.size

end MemoryPartitions

structure MemoryTable where
  table : Option CacheTable := none
  saves : Nat := 0
deriving DecidableEq

namespace MemoryTable

def save (m : MemoryTable) (table : CacheTable) : MemoryTable := ⟨some table, m.saves + 1⟩

end MemoryTable

/-- Partitions and table in memory. -/
structure Memory where
  partitions : MemoryPartitions := {}
  table : MemoryTable := {}
deriving DecidableEq

instance : Backing Memory where
  get m partition tag := .ok (m.partitions.get? partition tag)
  commit m partition entries :=
    return ({ m with partitions := m.partitions.commit partition entries }, .ok ())
  loadTable m := .ok m.table.table
  saveTable m table := return ({ m with table := m.table.save table }, .ok ())

end MachineVault
