import MachineVault.Backing.Basic
import MachineVault.Config
import MachineVault.IdentifierCache
import MachineVault.LoadedChunk.Loading

/-! Machine storage: the chunks in memory, the identifier cache over all machines, loaded or not,
and the backing that keeps both between runs. -/

namespace MachineVault

structure Storage (σ : Type) where
  config : Config
  registry : Registry
  backing : σ
  cache : IdentifierCache
  chunks : Std.ExtTreeMap Partition LoadedChunk := ∅
  /-- The generation of the next chunk to be loaded. -/
  nextGeneration : Nat := 1

namespace Storage

variable {σ : Type}

/-- Takes up work over a backing, with the identifier cache that was saved there. -/
def start [Backing σ] (config : Config) (registry : Registry) (backing : σ) :
    Logged (Except Error (Storage σ)) :=
  match config.validate, Backing.loadTable backing with
  | .error e, _ => return .error (.config e)
  | .ok (), .error e => return .error e
  | .ok (), .ok table => do
    let cache ← IdentifierCache.ofStored table
    Logged.event (.opened cache.size)
    return .ok { config, registry, backing, cache }

/-- The loaded chunk of a partition. -/
def chunk? (s : Storage σ) (partition : Partition) : Option LoadedChunk := s.chunks[partition]?

def isLoaded (s : Storage σ) (partition : Partition) : Bool := s.chunks.contains partition

/-- The loaded partitions in ascending order. -/
def loadedPartitions (s : Storage σ) : List Partition := s.chunks.keys

def generationOf? (s : Storage σ) (partition : Partition) : Option Nat :=
  (s.chunk? partition).map LoadedChunk.generation

/-- Puts a chunk in place of the one that served the partition. -/
def putChunk (s : Storage σ) (partition : Partition) (chunk : LoadedChunk) : Storage σ :=
  { s with chunks := s.chunks.insert partition chunk }

/-- Where the cache places a machine. -/
def locationOf? (s : Storage σ) (id : MachineId) : Option Block := s.cache.locationOf? id

/-- The machine that the cache places at a location. -/
def idOf? (s : Storage σ) (location : Location) : Option MachineId := s.cache.idAt? location.block

def contains (s : Storage σ) (location : Location) : Bool := s.cache.contains location.block

/-- Every block that the cache knows a machine on, in ascending order. -/
def keys (s : Storage σ) : List Block := s.cache.blocks

def summary (s : Storage σ) : String :=
  s!"ChunkMachineStorage \x7b config: {s.config.summary}, loaded_chunks: {s.chunks.size}, " ++
    s!"cached_machines: {s.cache.size}, next_generation: {s.nextGeneration} \x7d"

end Storage

end MachineVault
