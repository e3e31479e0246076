import MachineVault.Storage.Loading

/-! Flushing. A chunk leaves memory only when its index and its records have been committed
together; before that the cache is brought in line with it. -/

namespace MachineVault.Storage

variable {σ : Type}

/-- Points the cache at a machine that is about to be written. An entry in another partition stems
from a later save and stays. -/
def refresh (cache : IdentifierCache) (entry : MachineId × Block) : Logged IdentifierCache := do
  let (id, block) := entry
  match (cache.locationOf? id).filter fun cached => cached.partition ≠ block.partition with
  | some cached =>
    Logged.event (.heldTwice id block cached)
    return cache
  | none =>
    if let some origin := cache.leaves? id block then
      Logged.event (.cacheCorrected id origin block)
    return cache.insert id block

/-- The machines of a chunk, the live ones first, with their blocks. -/
def holdings (chunk : LoadedChunk) : List (MachineId × Block) :=
  chunk.machines.map (fun (block, machine) => (machine.id, block)) ++
    chunk.rawRecords.map fun (block, record) => (record.id, block)

/-- Drops a chunk from memory. -/
def release (s : Storage σ) (report : FlushReport) :
    Logged (Storage σ × Except Error (Option FlushReport)) := do
  Logged.event (if s.config.logFlushCounts then .flushCounted report else .flushed report)
  return ({ s with chunks := s.chunks.erase report.partition }, .ok (some report))

/-- Commits an encoded chunk and releases it. -/
def commit [Backing σ] (s : Storage σ) (report : FlushReport) (index data : Bytes) :
    Logged (Storage σ × Except Error (Option FlushReport)) := do
  let entries := [(s.config.indexTag, index), (s.config.dataTag, data)]
  match ← Backing.commit s.backing report.partition entries with
  | (backing, .error e) =>
    Logged.event (.flushFailed report.partition e)
    return ({ s with backing }, .error e)
  | (backing, .ok ()) =>
    let s := { s with backing }
    s.release
      { report with committed := true, indexBytes := index.length, dataBytes := data.length }

/-- Writes a partition and drops it from memory. An empty one that was never stored is only
dropped, and one that cannot be written stays. -/
def deactivate [Backing σ] (s : Storage σ) (partition : Partition) :
    Logged (Storage σ × Except Error (Option FlushReport)) :=
  match s.chunk? partition with
  | none => do
    Logged.event (.notLoaded partition)
    return (s, .ok none)
  | some chunk => do
    let cache ← (holdings chunk).foldlM refresh s.cache
    let s := { s with cache }
    let report : FlushReport :=
      { partition, generation := chunk.generation, machines := chunk.machineCount,
        unresolved := chunk.rawCount }
    if chunk.isEmpty && !chunk.persisted then
      Logged.event (.emptyDropped partition)
      s.release report
    else
      match chunk.encode with
      | .error e => return (s, .error (.format e))
      | .ok (index, data) => s.commit report index data

/-- Saves the identifier cache. -/
def saveCache [Backing σ] (s : Storage σ) : Logged (Storage σ × Except Error Unit) := do
  let (backing, outcome) ← Backing.saveTable s.backing s.cache.toTable
  return ({ s with backing }, outcome)

/-- Flushes partitions one after another and collects the errors. -/
def flushEach [Backing σ] (s : Storage σ) : List Partition → Logged (Storage σ × List Error)
  | [] => return (s, [])
  | partition :: rest => do
    let (s, outcome) ← s.deactivate partition
    let (s, errors) ← s.flushEach rest
    match outcome with
    | .error e => return (s, e :: errors)
    | .ok _ => return (s, errors)

/-- Flushes all that is loaded and saves the cache, whatever fails on the way. The first error is
the answer. -/
def flushAll [Backing σ] (s : Storage σ) : Logged (Storage σ × Except Error Unit) := do
  let partitions := s.loadedPartitions
  let (s, errors) ← s.flushEach partitions
  let (s, saved) ← s.saveCache
  Logged.event (.flushedAll (partitions.length - errors.length) errors.length s.cache.size)
  match errors with
  | [] => return (s, saved)
  | e :: _ => return (s, .error e)

/-- What a host says of a partition. -/
inductive Notice
  | activated (partition : Partition)
  | deactivated (partition : Partition)
deriving DecidableEq

def handle [Backing σ] (s : Storage σ) : Notice → Logged (Storage σ × Except Error Unit)
  | .activated partition => do
    let (s, outcome) ← s.activate partition
    return (s, outcome.map fun _ => ())
  | .deactivated partition => do
    let (s, outcome) ← s.deactivate partition
    return (s, outcome.map fun _ => ())

end MachineVault.Storage
