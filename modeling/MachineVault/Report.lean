import MachineVault.Location
import MachineVault.MachineId

/-! What loading and flushing a partition came to. -/

namespace MachineVault

structure LoadReport where
  partition : Partition
  generation : Nat
  /-- Nothing was read, because the partition was loaded before. -/
  alreadyLoaded : Bool := false
  machines : Nat := 0
  /-- Records whose type tag has no factory. -/
  unresolved : List (Block × String) := []
  /-- Records that could not be decoded, kept apart or rebuilt. -/
  failedRecords : Nat := 0
  /-- Decoded records that the chunk did not keep. -/
  dropped : List (MachineId × Block) := []
  /-- Index entries without a record. -/
  missingRecords : List Block := []
  /-- Records that the index does not list, or lists under another type. -/
  inconsistent : Nat := 0
  /-- Machines that the identifier cache places elsewhere or does not know. -/
  cacheMismatches : Nat := 0
deriving DecidableEq

/-- Every record became a machine, and index and cache agreed. -/
def LoadReport.isClean (r : LoadReport) : Bool :=
  r.unresolved.isEmpty && r.failedRecords = 0 && r.missingRecords.isEmpty && r.inconsistent = 0 &&
    r.cacheMismatches = 0

structure FlushReport where
  partition : Partition
  generation : Nat
  machines : Nat
  unresolved : Nat
  /-- An empty chunk that was never stored is dropped without writing. -/
  committed : Bool := false
  indexBytes : Nat := 0
  dataBytes : Nat := 0
deriving DecidableEq

end MachineVault
