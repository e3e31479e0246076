import MachineVault.Storage.Basic

/-! Loading partitions. A partition is read once; what stops it from being read leaves storage as it
was, while single bad records are only reported. -/

namespace MachineVault.Storage

variable {σ : Type}

/-- The index of a partition. Without one every record counts as unlisted. -/
def readIndex (partition : Partition) : Option Bytes → Logged (Except Error ChunkIndex)
  | none => do
    Logged.event (.indexAbsent partition)
    return .ok ⟨partition.chunk, ∅⟩
  | some bytes =>
    match ChunkIndex.decode bytes with
    | .error e => do
      Logged.event (.indexUnreadable partition e)
      return .error (.format e)
    | .ok index => do
      if index.chunk = partition.chunk then return .ok index
      Logged.event (.indexForeign partition index.chunk)
      return .error (.format (.foreignIndex index.chunk partition))

def readRecords (partition : Partition) : Option Bytes → Logged (Except Error (List Bytes))
  | none => return .ok []
  | some bytes =>
    match RecordList.decode bytes with
    | .error e => do
      Logged.event (.dataUnreadable partition e)
      return .error (.format e)
    | .ok records => return .ok records

/-- The chunk in stored bytes. A partition with nothing stored is empty. -/
def buildChunk (s : Storage σ) (partition : Partition) :
    (index data : Option Bytes) → Logged (Except Error (LoadedChunk × LoadReport))
  | none, none =>
    return .ok ({ partition, generation := s.nextGeneration },
      { partition, generation := s.nextGeneration })
  | index, data => do
    match ← readIndex partition index with
    | .error e => return .error e
    | .ok index =>
      match ← readRecords partition data with
      | .error e => return .error e
      | .ok records =>
        return .ok (← LoadedChunk.load partition s.nextGeneration index records s.registry
          s.config.preserveUnknown)

/-- Both byte strings are fetched before either is read. -/
def readChunk [Backing σ] (s : Storage σ) (partition : Partition) :
    Logged (Except Error (LoadedChunk × LoadReport)) :=
  match Backing.get s.backing partition s.config.indexTag,
    Backing.get s.backing partition s.config.dataTag with
  | .error e, _ | .ok _, .error e => return .error e
  | .ok index, .ok data => s.buildChunk partition index data

/-- Forgets a machine whose record was dropped, if that record is where the cache places it. -/
def forgetDropped (cache : IdentifierCache) (dropped : MachineId × Block) :
    Logged IdentifierCache := do
  let (id, block) := dropped
  if cache.locationOf? id = some block then
    Logged.event (.forgotDropped id block)
    return cache.eraseId id
  return cache

/-- Forgets the machine on a block that the index lists in vain. -/
def forgetMissing (chunk : LoadedChunk) (cache : IdentifierCache) (block : Block) :
    Logged IdentifierCache := do
  if chunk.holds block then return cache
  match cache.idAt? block with
  | none => return cache
  | some id =>
    Logged.event (.forgotMissing id block)
    return cache.eraseBlock block

/-- The cache without the machines that a load has shown to be lost. -/
def forgetLost (cache : IdentifierCache) (chunk : LoadedChunk) (report : LoadReport) :
    Logged IdentifierCache := do
  let cache ← report.dropped.foldlM forgetDropped cache
  report.missingRecords.foldlM (forgetMissing chunk) cache

/-- The disagreement between the cache and a machine of a loaded chunk. -/
def mismatch? (cache : IdentifierCache) (entry : Block × Machine) : Option Event :=
  let (block, machine) := entry
  match cache.locationOf? machine.id with
  | none => some (.machineUncached machine.id block)
  | some cached =>
    if cached = block then none else some (.machineCachedElsewhere machine.id block cached)

def mismatches (cache : IdentifierCache) (chunk : LoadedChunk) : List Event :=
  chunk.machines.filterMap (mismatch? cache)

/-- Takes up a chunk that was read. -/
def adopt (s : Storage σ) (chunk : LoadedChunk) (report : LoadReport) :
    Logged (Storage σ × LoadReport) := do
  let cache ← forgetLost s.cache chunk report
  let problems := if s.config.verifyOnLoad then mismatches cache chunk else []
  Logged.events problems
  let report := { report with cacheMismatches := problems.length }
  Logged.event (if report.isClean then .loaded report else .loadedWithProblems report)
  return ({ s.putChunk report.partition chunk with
    cache, nextGeneration := s.nextGeneration + 1 }, report)

/-- Loads a partition unless it is loaded already. -/
def load [Backing σ] (s : Storage σ) (partition : Partition) :
    Logged (Storage σ × Except Error (LoadedChunk × LoadReport)) :=
  match s.chunk? partition with
  | some chunk => do
    Logged.event (.alreadyLoaded partition chunk.generation)
    return (s, .ok (chunk, chunk.reportLoaded))
  | none => do
    match ← s.readChunk partition with
    | .error e => return (s, .error e)
    | .ok (chunk, report) =>
      let (s, report) ← s.adopt chunk report
      return (s, .ok (chunk, report))

/-- Brings a partition into memory. -/
def activate [Backing σ] (s : Storage σ) (partition : Partition) :
    Logged (Storage σ × Except Error LoadReport) := do
  let (s, outcome) ← s.load partition
  return (s, outcome.map Prod.snd)

/-- Serves a partition as empty, whatever is stored for it, and forgets its machines. The stored
bytes stay until the chunk is flushed. -/
def activateEmpty (s : Storage σ) (partition : Partition) : Logged (Storage σ × LoadReport) :=
  match s.chunk? partition with
  | some chunk => return (s, chunk.reportLoaded)
  | none => do
    let generation := s.nextGeneration
    let stale := s.cache.blocks.filter partition.contains
    Logged.event (.activatedEmpty partition generation stale.length)
    return ({ s.putChunk partition (.superseding partition generation) with
      cache := stale.foldl IdentifierCache.eraseBlock s.cache, nextGeneration := generation + 1 },
      { partition, generation })

/-- Goes on with the chunk of a partition, which is loaded if need be. -/
def withChunk [Backing σ] {α : Type} (s : Storage σ) (partition : Partition)
    (next : Storage σ → LoadedChunk → Logged (Storage σ × Except Error α)) :
    Logged (Storage σ × Except Error α) := do
  match ← s.load partition with
  | (s, .error e) => return (s, .error e)
  | (s, .ok (chunk, _)) => next s chunk

end MachineVault.Storage
