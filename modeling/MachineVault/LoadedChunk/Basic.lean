import MachineVault.ChunkIndex
import MachineVault.Record
import MachineVault.RecordList
import MachineVault.Report

/-! Loaded chunks: the contents of one partition in memory. A block carries either a live machine or
a record that no factory could rebuild, kept as the bytes it was read from. -/

namespace MachineVault

/-- A record waiting for a factory. -/
structure RawRecord where
  id : MachineId
  typeTag : String
  bytes : Bytes
deriving DecidableEq

inductive Slot
  | live (machine : Machine)
  | raw (record : RawRecord)
deriving DecidableEq

namespace Slot

def id : Slot → MachineId
  | live machine => machine.id
  | raw record => record.id

def typeTag : Slot → String
  | live machine => machine.typeTag
  | raw record => record.typeTag

def machine? : Slot → Option Machine
  | live machine => some machine
  | raw _ => none

def record? : Slot → Option RawRecord
  | live _ => none
  | raw record => some record

/-- The record to store for a block. It names the block that carries the machine, whatever the
machine itself reports. -/
def encode (block : Block) : Slot → Bytes
  | live machine => { machine with location := block }.encode
  | raw record => record.bytes

end Slot

structure LoadedChunk where
  partition : Partition
  /-- Tells successive instances of a partition apart. -/
  generation : Nat
  /-- Something is stored for the partition, so an empty chunk is written out as well. -/
  persisted : Bool := false
  /-- One map for both, so no block carries both; `ChunkMaps` has them in two. -/
  contents : Std.ExtTreeMap Block Slot := ∅
deriving DecidableEq

namespace LoadedChunk

/-- A chunk that stands in for stored bytes which cannot be read. -/
def superseding (partition : Partition) (generation : Nat) : LoadedChunk :=
  { partition, generation, persisted := true }

def slot? (c : LoadedChunk) (block : Block) : Option Slot := c.contents[block]?

def machine? (c : LoadedChunk) (block : Block) : Option Machine :=
  (c.slot? block).bind Slot.machine?

def holds (c : LoadedChunk) (block : Block) : Bool := c.contents.contains block

/-- The machines with the blocks that carry them, in ascending order. -/
def machines (c : LoadedChunk) : List (Block × Machine) :=
  c.contents.toList.filterMap fun (block, slot) => slot.machine?.map (block, ·)

/-- The raw records with their blocks, in ascending order. -/
def rawRecords (c : LoadedChunk) : List (Block × RawRecord) :=
  c.contents.toList.filterMap fun (block, slot) => slot.record?.map (block, ·)

def machineCount (c : LoadedChunk) : Nat := c.machines.length

def rawCount (c : LoadedChunk) : Nat := c.rawRecords.length

def isEmpty (c : LoadedChunk) : Bool := c.contents.isEmpty

def place (c : LoadedChunk) (block : Block) (slot : Slot) : LoadedChunk :=
  { c with contents := c.contents.insert block slot }

/-- Puts a machine on a block of the partition, in place of whatever was there. -/
def save (c : LoadedChunk) (block : Block) (machine : Machine) : Except Error LoadedChunk :=
  if c.partition.contains block then .ok (c.place block (.live machine))
  else .error (.precondition (.outsidePartition block c.partition))

/-- Clears a block. -/
def remove (c : LoadedChunk) (block : Block) : LoadedChunk :=
  { c with contents := c.contents.erase block }

/-- Changes the machine on a block, if there is one. -/
def edit (c : LoadedChunk) (block : Block) (change : Machine → Machine) : LoadedChunk :=
  match c.machine? block with
  | some machine => c.place block (.live (change machine))
  | none => c

def index (c : LoadedChunk) : ChunkIndex where
  chunk := c.partition.chunk
  entries := c.contents.map fun _ slot => slot.typeTag

/-- The index and the records in its order. -/
def encode (c : LoadedChunk) : Except FormatError (Bytes × Bytes) := do
  let index ← c.index.encode
  let records ← RecordList.encode (c.contents.toList.map fun (block, slot) => slot.encode block)
  return (index, records)

/-- The report for a partition that is in memory already. -/
def reportLoaded (c : LoadedChunk) : LoadReport where
  partition := c.partition
  generation := c.generation
  alreadyLoaded := true
  machines := c.machineCount

end LoadedChunk

end MachineVault
