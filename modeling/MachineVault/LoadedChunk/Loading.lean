import Std.Data.ExtTreeSet.Lemmas
import MachineVault.Event
import MachineVault.LoadedChunk.Basic

/-! Loading a chunk from its stored records. Each record is judged by itself, so a bad one costs no
other, and at the end the index is searched for entries that no record answered. -/

namespace MachineVault

/-- What becomes of one stored record. -/
inductive Verdict
  | undecodable (cause : Error)
  | outside (record : Machine)
  | repeated (record : Machine)
  | rebuilt (record machine : Machine)
  | unbuilt (record : Machine) (bytes : Bytes) (cause : Error)

/-- A load under way. -/
structure Loading where
  chunk : LoadedChunk
  report : LoadReport
  /-- The blocks of the partition that a record was read for. -/
  seen : Std.ExtTreeSet Block := ∅

namespace Loading

def start (partition : Partition) (generation : Nat) : Loading where
  chunk := { partition, generation, persisted := true }
  report := { partition, generation }

/-- Only the first record for a block counts. -/
def judge (l : Loading) (registry : Registry) (bytes : Bytes) : Verdict :=
  match Machine.decode bytes with
  | .error cause => .undecodable cause
  | .ok record =>
    if ¬ l.chunk.partition.contains record.location then .outside record
    else if l.seen.contains record.location then .repeated record
    else match registry.rebuild record with
    | .ok machine => .rebuilt record machine
    | .error cause => .unbuilt record bytes cause

/-- The event for a record that the index does not list as it is. -/
def indexDispute? (index : ChunkIndex) (record : Machine) : Option Event :=
  match index.get? record.location with
  | none => some (.recordNotIndexed record.location record.id)
  | some tag =>
    if tag = record.typeTag then none
    else some (.typeDisagrees record.location tag record.typeTag)

def unbuiltEvent (record : Machine) : Error → Event
  | .unknownType tag => .factoryMissing record.location record.id tag
  | cause => .factoryFailed record.location record.id cause

def events (partition : Partition) (index : ChunkIndex) : Verdict → List Event
  | .undecodable cause => [.recordUndecodable partition cause]
  | .outside record => [.recordOutside partition record.location record.id]
  | .repeated record => [.recordRepeated record.location record.id]
  | .rebuilt record _ => (indexDispute? index record).toList
  | .unbuilt record _ cause =>
    (indexDispute? index record).toList ++ [unbuiltEvent record cause]

/-- Counts a record that the chunk does not keep. -/
def drop (l : Loading) (record : Machine) : Loading :=
  { l with report.dropped := l.report.dropped ++ [(record.id, record.location)] }

def fail (l : Loading) : Loading :=
  { l with report.failedRecords := l.report.failedRecords + 1 }

/-- Notes that a block has its record, and compares it with the index. -/
def meet (l : Loading) (index : ChunkIndex) (record : Machine) : Loading :=
  { l with
    seen := l.seen.insert record.location
    report.inconsistent :=
      l.report.inconsistent + if (indexDispute? index record).isSome then 1 else 0 }

/-- Records an unknown type by its tag, and any other cause as a failure. -/
def blame (l : Loading) (record : Machine) : Error → Loading
  | .unknownType tag =>
    { l with report.unresolved := l.report.unresolved ++ [(record.location, tag)] }
  | _ => l.fail

/-- Keeps a record that has no machine yet, if such records are to be preserved. -/
def keepRaw (l : Loading) (preserve : Bool) (record : Machine) (bytes : Bytes) : Loading :=
  if preserve then
    { l with chunk := l.chunk.place record.location (.raw ⟨record.id, record.typeTag, bytes⟩) }
  else l.drop record

def settle (l : Loading) (index : ChunkIndex) (preserve : Bool) : Verdict → Loading
  | .undecodable _ => l.fail
  | .outside record | .repeated record => l.fail.drop record
  | .rebuilt record machine =>
    let l := l.meet index record
    { l with
      chunk := l.chunk.place record.location (.live machine)
      report.machines := l.report.machines + 1 }
  | .unbuilt record bytes cause =>
    ((l.meet index record).blame record cause).keepRaw preserve record bytes

def add (index : ChunkIndex) (registry : Registry) (preserve : Bool) (l : Loading)
    (bytes : Bytes) : Logged Loading :=
  let verdict := l.judge registry bytes
  ⟨l.settle index preserve verdict, events l.chunk.partition index verdict⟩

/-- Index entries without a record. -/
def missing (l : Loading) (index : ChunkIndex) : List (Block × String) :=
  index.entries.toList.filter fun (block, _) => ¬ l.seen.contains block

def finish (l : Loading) (index : ChunkIndex) : Logged (LoadedChunk × LoadReport) :=
  ⟨(l.chunk, { l.report with missingRecords := (l.missing index).map Prod.fst }),
    (l.missing index).map fun (block, tag) => .recordMissing block tag⟩

end Loading

/-- Brings a partition back from its index and its records. -/
def LoadedChunk.load (partition : Partition) (generation : Nat) (index : ChunkIndex)
    (records : List Bytes) (registry : Registry) (preserve : Bool) :
    Logged (LoadedChunk × LoadReport) := do
  let l ← records.foldlM (Loading.add index registry preserve) (.start partition generation)
  l.finish index

end MachineVault
