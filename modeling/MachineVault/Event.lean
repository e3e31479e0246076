import MachineVault.Error
import MachineVault.Report

/-! Log events by cause, and how each is written: level, target, text and named fields. Work that
logs returns its events in order beside its result. -/

namespace MachineVault

inductive Event
  | partitionCommitted (partition : Partition) (tags : Nat) (path : String)
  | tableSaved (entries : Nat) (path : String)
  | tableSharesBlock (location : Block) (kept dropped : MachineId)
  | tableRepeatsId (id : MachineId) (kept dropped : Block)
  | recordUndecodable (partition : Partition) (error : Error)
  | recordOutside (partition : Partition) (location : Block) (id : MachineId)
  | recordRepeated (location : Block) (id : MachineId)
  | typeDisagrees (location : Block) (indexType recordType : String)
  | recordNotIndexed (location : Block) (id : MachineId)
  | factoryMissing (location : Block) (id : MachineId) (tag : String)
  | factoryFailed (location : Block) (id : MachineId) (error : Error)
  | recordMissing (location : Block) (tag : String)
  | opened (cached : Nat)
  | cachedElsewhere (id : MachineId) (location : Block) (found : MachineId)
  | cachedNowhere (id : MachineId) (location : Block)
  | misreported (location reported : Block) (id : MachineId)
  | movedUnremoved (id : MachineId) (origin target : Block) (evicted : Bool)
  | replaced (location : Block) (old new : MachineId)
  | removedUncached (location : Block) (machine cached : MachineId)
  | activatedEmpty (partition : Partition) (generation forgotten : Nat)
  | notLoaded (partition : Partition)
  | emptyDropped (partition : Partition)
  | flushFailed (partition : Partition) (error : Error)
  | flushCounted (report : FlushReport)
  | flushed (report : FlushReport)
  | flushedAll (written failed cached : Nat)
  | alreadyLoaded (partition : Partition) (generation : Nat)
  | loaded (report : LoadReport)
  | loadedWithProblems (report : LoadReport)
  | indexUnreadable (partition : Partition) (error : FormatError)
  | indexForeign (partition : Partition) (chunk : ChunkPos)
  | indexAbsent (partition : Partition)
  | dataUnreadable (partition : Partition) (error : FormatError)
  | machineCachedElsewhere (id : MachineId) (stored cached : Block)
  | machineUncached (id : MachineId) (location : Block)
  | heldTwice (id : MachineId) (stale cached : Block)
  | cacheCorrected (id : MachineId) (origin target : Block)
  | forgotDropped (id : MachineId) (location : Block)
  | forgotMissing (id : MachineId) (location : Block)
deriving DecidableEq

/-- From the most to the least severe. -/
inductive Level
  | error | warn | info | debug
deriving DecidableEq

def Level.name : Level → String
  | error => "ERROR"
  | warn => "WARN"
  | info => "INFO"
  | debug => "DEBUG"

def Level.severity : Level → Nat
  | error => 0
  | warn => 1
  | info => 2
  | debug => 3

inductive Target
  | codec | durability | integrity | storage
deriving DecidableEq

def Target.name : Target → String
  | codec => "machinestore::codec"
  | durability => "machinestore::durability"
  | integrity => "machinestore::integrity"
  | storage => "machinestore::storage"

/-- A field's value. A tag is given as it is, every other text may end in a cause. -/
inductive FieldValue
  | text (s : String)
  | tag (s : String)
  | number (n : Nat)
  | flag (b : Bool)

/-- An event as it is written. -/
structure LogLine where
  level : Level
  target : Target
  message : String
  fields : List (String × FieldValue)

namespace Event

private def shown (name : String) {α : Type} [ToString α] (value : α) : String × FieldValue :=
  (name, .text (toString value))

private def count (name : String) (n : Nat) : String × FieldValue := (name, .number n)

def line : Event → LogLine
  | partitionCommitted partition tags path =>
    ⟨.debug, .durability, "Partition file committed",
      [shown "partition" partition, count "tags" tags, shown "path" path]⟩
  | tableSaved entries path =>
    ⟨.debug, .durability, "Identifier cache saved", [count "entries" entries, shown "path" path]⟩
  | tableSharesBlock location kept dropped =>
    ⟨.warn, .integrity, "Cache table holds two machines at one location",
      [shown "location" location, shown "kept" kept, shown "dropped" dropped]⟩
  | tableRepeatsId id kept dropped =>
    ⟨.warn, .integrity, "Cache table holds one machine at two locations",
      [shown "id" id, shown "kept" kept, shown "dropped" dropped]⟩
  | recordUndecodable partition error =>
    ⟨.warn, .codec, "Skipping undecodable machine record",
      [shown "partition" partition, shown "error" error.message]⟩
  | recordOutside partition location id =>
    ⟨.warn, .codec, "Skipping machine record outside its partition",
      [shown "partition" partition, shown "location" location, shown "id" id]⟩
  | recordRepeated location id =>
    ⟨.warn, .codec, "Skipping second machine record at one location",
      [shown "location" location, shown "id" id]⟩
  | typeDisagrees location indexType recordType =>
    ⟨.error, .integrity, "Index and record disagree on machine type",
      [shown "location" location, ("index_type", .tag indexType), shown "record_type" recordType]⟩
  | recordNotIndexed location id =>
    ⟨.error, .integrity, "Machine record has no index entry",
      [shown "location" location, shown "id" id]⟩
  | factoryMissing location id tag =>
    ⟨.warn, .codec, "No factory registered for machine type",
      [shown "location" location, shown "id" id, shown "type_tag" tag]⟩
  | factoryFailed location id error =>
    ⟨.warn, .codec, "Machine factory failed",
      [shown "location" location, shown "id" id, shown "error" error.message]⟩
  | recordMissing location tag =>
    ⟨.error, .integrity, "Index entry has no machine record",
      [shown "location" location, shown "type_tag" tag]⟩
  | opened cached => ⟨.debug, .storage, "Machine storage opened", [count "cached" cached]⟩
  | cachedElsewhere id location found =>
    ⟨.error, .integrity, "Identifier cache points at a different machine",
      [shown "id" id, shown "location" location, shown "found" found]⟩
  | cachedNowhere id location =>
    ⟨.error, .integrity, "Identifier cache points at an empty location",
      [shown "id" id, shown "location" location]⟩
  | misreported location reported id =>
    ⟨.warn, .integrity, "Machine saved at a location it does not report",
      [shown "location" location, shown "reported" reported, shown "id" id]⟩
  | movedUnremoved id origin target evicted =>
    ⟨.error, .integrity,
      "Machine saved at a new location without being removed from the old one",
      [shown "id" id, shown "from" origin, shown "to" target, ("evicted", .flag evicted)]⟩
  | replaced location old new =>
    ⟨.debug, .storage, "Machine replaced",
      [shown "location" location, shown "old" old, shown "new" new]⟩
  | removedUncached location machine cached =>
    ⟨.error, .integrity, "Removed machine does not match the identifier cache",
      [shown "location" location, shown "machine" machine, shown "cached" cached]⟩
  | activatedEmpty partition generation forgotten =>
    ⟨.error, .storage, "Partition activated empty over unreadable machine data",
      [shown "partition" partition, count "generation" generation, count "forgotten" forgotten]⟩
  | notLoaded partition =>
    ⟨.warn, .storage, "Deactivation for a partition that is not loaded",
      [shown "partition" partition]⟩
  | emptyDropped partition =>
    ⟨.debug, .storage, "Empty chunk dropped without writing", [shown "partition" partition]⟩
  | flushFailed partition error =>
    ⟨.error, .storage, "Chunk flush failed, keeping it loaded",
      [shown "partition" partition, shown "error" error.message]⟩
  | flushCounted report =>
    ⟨.info, .storage, "Chunk flushed",
      [shown "partition" report.partition, count "machines" report.machines,
        count "unresolved" report.unresolved]⟩
  | flushed report =>
    ⟨.debug, .storage, "Chunk flushed",
      [shown "partition" report.partition, count "generation" report.generation,
        count "machines" report.machines, count "unresolved" report.unresolved,
        count "index_bytes" report.indexBytes, count "data_bytes" report.dataBytes]⟩
  | flushedAll written failed cached =>
    ⟨.info, .storage, "Flushed all chunks",
      [count "flushed" written, count "failed" failed, count "cached" cached]⟩
  | alreadyLoaded partition generation =>
    ⟨.debug, .storage, "Partition already loaded",
      [shown "partition" partition, count "generation" generation]⟩
  | loaded report =>
    ⟨.debug, .storage, "Partition loaded",
      [shown "partition" report.partition, count "generation" report.generation,
        count "machines" report.machines]⟩
  | loadedWithProblems report =>
    ⟨.warn, .storage, "Partition loaded with problems",
      [shown "partition" report.partition, count "generation" report.generation,
        count "machines" report.machines, count "unresolved" report.unresolved.length,
        count "failed" report.failedRecords, count "missing" report.missingRecords.length,
        count "inconsistent" report.inconsistent,
        count "cache_mismatches" report.cacheMismatches]⟩
  | indexUnreadable partition error =>
    ⟨.error, .codec, "Machine index is unreadable",
      [shown "partition" partition, shown "error" error.message]⟩
  | indexForeign partition chunk =>
    ⟨.error, .codec, "Machine index belongs to another chunk",
      [shown "partition" partition, shown "index_chunk" chunk]⟩
  | indexAbsent partition =>
    ⟨.error, .integrity, "Machine data present without an index", [shown "partition" partition]⟩
  | dataUnreadable partition error =>
    ⟨.error, .codec, "Machine data blob is unreadable",
      [shown "partition" partition, shown "error" error.message]⟩
  | machineCachedElsewhere id stored cached =>
    ⟨.error, .integrity, "Identifier cache places machine elsewhere",
      [shown "id" id, shown "stored" stored, shown "cached" cached]⟩
  | machineUncached id location =>
    ⟨.warn, .integrity, "Loaded machine is missing from the identifier cache",
      [shown "id" id, shown "location" location]⟩
  | heldTwice id stale cached =>
    ⟨.error, .integrity, "Machine held by two partitions, keeping the cached location",
      [shown "id" id, shown "stale" stale, shown "cached" cached]⟩
  | cacheCorrected id origin target =>
    ⟨.warn, .integrity, "Identifier cache corrected on flush",
      [shown "id" id, shown "from" origin, shown "to" target]⟩
  | forgotDropped id location =>
    ⟨.warn, .integrity, "Forgot cached machine whose record was dropped",
      [shown "id" id, shown "location" location]⟩
  | forgotMissing id location =>
    ⟨.warn, .integrity, "Forgot cached machine with no readable record",
      [shown "id" id, shown "location" location]⟩

end Event

/-- A result and the events on the way to it. -/
structure Logged (α : Type) where
  value : α
  log : List Event := []

namespace Logged

variable {α β : Type}

protected def pure (a : α) : Logged α := ⟨a, []⟩

protected def bind (x : Logged α) (f : α → Logged β) : Logged β :=
  ⟨(f x.value).value, x.log ++ (f x.value).log⟩

instance : Monad Logged where
  pure := Logged.pure
  bind := Logged.bind

/-- Logs one event. -/
def event (e : Event) : Logged Unit := ⟨(), [e]⟩

/-- Logs several events. -/
def events (es : List Event) : Logged Unit := ⟨(), es⟩

@[simp] theorem value_pure (a : α) : (pure a : Logged α).value = a := rfl

@[simp] theorem log_pure (a : α) : (pure a : Logged α).log = [] := rfl

@[simp] theorem value_bind (x : Logged α) (f : α → Logged β) :
    (x >>= f).value = (f x.value).value := rfl

@[simp] theorem log_bind (x : Logged α) (f : α → Logged β) :
    (x >>= f).log = x.log ++ (f x.value).log := rfl

@[simp] theorem value_map (g : α → β) (x : Logged α) : (g <$> x).value = g x.value := rfl

@[simp] theorem log_map (g : α → β) (x : Logged α) : (g <$> x).log = x.log := by
  change x.log ++ [] = x.log
  simp

@[simp] theorem value_foldlM (f : β → α → Logged β) (as : List α) (b : β) :
    (as.foldlM f b).value = as.foldl (fun b a => (f b a).value) b := by
  induction as generalizing b with
  | nil => rfl
  | cons a as ih => exact ih (f b a).value

@[simp] theorem log_event (e : Event) : (event e).log = [e] := rfl

@[simp] theorem log_events (es : List Event) : (events es).log = es := rfl

end Logged

end MachineVault
