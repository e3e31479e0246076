import MachineVault.Storage.Flushing
import MachineVault.Storage.Machines

/-! The calls of a host and what it is answered, one call or a run of them. A caller that changes a
machine through `edit` is shown what came of it. -/

namespace MachineVault

inductive Operation
  | get (location : Location)
  | edit (location : Location) (change : Machine → Machine)
  | getById (id : MachineId)
  | save (location : Location) (machine : Machine)
  | remove (location : Location)
  | machinesOf (partition : Partition)
  | locationOf (id : MachineId)
  | idOf (location : Location)
  | contains (location : Location)
  | keys
  | isLoaded (partition : Partition)
  | loadedPartitions
  | generationOf (partition : Partition)
  | chunkOf (partition : Partition)
  | activate (partition : Partition)
  | activateEmpty (partition : Partition)
  | deactivate (partition : Partition)
  | handle (notice : Storage.Notice)
  | flushAll
  | saveCache

inductive Answer
  | machine (outcome : Except Error (Option Machine))
  | machines (outcome : Except Error (List Machine))
  | block (block : Option Block)
  | id (id : Option MachineId)
  | flag (flag : Bool)
  | blocks (blocks : List Block)
  | partitions (partitions : List Partition)
  | generation (generation : Option Nat)
  | chunk (chunk : Option LoadedChunk)
  | loaded (outcome : Except Error LoadReport)
  | flushed (outcome : Except Error (Option FlushReport))
  | done (outcome : Except Error Unit)

namespace Storage

variable {σ : Type} [Backing σ]

/-- The outcome of a call as an answer. -/
def answering {α : Type} (answer : α → Answer) (call : Logged (Storage σ × α)) :
    Logged (Storage σ × Answer) :=
  (fun (s, a) => (s, answer a)) <$> call

def perform (s : Storage σ) : Operation → Logged (Storage σ × Answer)
  | .get location => answering .machine (s.get location)
  | .edit location change => answering .machine (s.edit location change)
  | .getById id => answering .machine (s.getById id)
  | .save location machine => answering .done (s.save location machine)
  | .remove location => answering .machine (s.remove location)
  | .machinesOf partition => answering .machines (s.machinesOf partition)
  | .locationOf id => return (s, .block (s.locationOf? id))
  | .idOf location => return (s, .id (s.idOf? location))
  | .contains location => return (s, .flag (s.contains location))
  | .keys => return (s, .blocks s.keys)
  | .isLoaded partition => return (s, .flag (s.isLoaded partition))
  | .loadedPartitions => return (s, .partitions s.loadedPartitions)
  | .generationOf partition => return (s, .generation (s.generationOf? partition))
  | .chunkOf partition => return (s, .chunk (s.chunk? partition))
  | .activate partition => answering .loaded (s.activate partition)
  | .activateEmpty partition => answering (.loaded ∘ .ok) (s.activateEmpty partition)
  | .deactivate partition => answering .flushed (s.deactivate partition)
  | .handle notice => answering .done (s.handle notice)
  | .flushAll => answering .done s.flushAll
  | .saveCache => answering .done s.saveCache

/-- One call after another. -/
def run (s : Storage σ) : List Operation → Logged (Storage σ × List Answer)
  | [] => return (s, [])
  | operation :: rest => do
    let (s, answer) ← s.perform operation
    let (s, answers) ← s.run rest
    return (s, answer :: answers)

/-- Where a run of calls leads. -/
def after (s : Storage σ) (operations : List Operation) : Storage σ := (s.run operations).value.1

/-- What a run of calls is answered. -/
def answers (s : Storage σ) (operations : List Operation) : List Answer :=
  (s.run operations).value.2

@[simp] theorem after_nil (s : Storage σ) : s.after [] = s := rfl

@[simp] theorem after_cons (s : Storage σ) (operation : Operation) (rest : List Operation) :
    s.after (operation :: rest) = (s.after [operation]).after rest := rfl

theorem after_append (s : Storage σ) (operations rest : List Operation) :
    s.after (operations ++ rest) = (s.after operations).after rest := by
  induction operations generalizing s with
  | nil => rfl
  | cons operation operations ih => exact ih (s.perform operation).value.1

end Storage

end MachineVault
