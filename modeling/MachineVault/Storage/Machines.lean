import MachineVault.Storage.Loading

/-! Machines by location and by identifier. The location that a caller names decides where a machine
is kept, whatever the machine reports itself. -/

namespace MachineVault.Storage

variable {σ : Type} [Backing σ]

def get (s : Storage σ) (location : Location) : Logged (Storage σ × Except Error (Option Machine)) :=
  let block := location.block
  s.withChunk block.partition fun s chunk => return (s, .ok (chunk.machine? block))

/-- Changes a machine in place; the change is kept when its chunk is flushed. Answers the changed
machine. -/
def edit (s : Storage σ) (location : Location) (change : Machine → Machine) :
    Logged (Storage σ × Except Error (Option Machine)) :=
  let block := location.block
  s.withChunk block.partition fun s chunk =>
    let chunk := chunk.edit block change
    return (s.putChunk block.partition chunk, .ok (chunk.machine? block))

/-- The machine where the cache places an identifier. A cache that is wrong is left as it is. -/
def getById (s : Storage σ) (id : MachineId) : Logged (Storage σ × Except Error (Option Machine)) :=
  match s.cache.locationOf? id with
  | none => return (s, .ok none)
  | some block =>
    s.withChunk block.partition fun s chunk => do
      match chunk.machine? block with
      | none =>
        Logged.event (.cachedNowhere id block)
        return (s, .ok none)
      | some machine =>
        if machine.id = id then return (s, .ok (some machine))
        Logged.event (.cachedElsewhere id block machine.id)
        return (s, .ok none)

/-- What has to hold for a machine to have a stored form on a block. -/
def checkSaveable (block : Block) (machine : Machine) : Except PreconditionError Unit := do
  if block.world.isEmpty then throw .emptyWorld
  if machine.typeTag.isEmpty then throw (.emptyTypeTag machine.id)
  unless 0 ≤ block.y ∧ block.y ≤ ChunkIndex.maxHeight do throw (.heightOutOfRange block.y)

/-- Takes a machine off the block where a loaded chunk still holds it. -/
def evict (s : Storage σ) (id : MachineId) (block : Block) : Storage σ × Bool :=
  match s.chunk? block.partition with
  | none => (s, false)
  | some chunk =>
    if (chunk.machine? block).map Machine.id = some id then
      (s.putChunk block.partition (chunk.remove block), true)
    else (s, false)

/-- Ends the stay of a machine at the block that it leaves without having been removed there. -/
def leave (s : Storage σ) (id : MachineId) (target : Block) : Logged (Storage σ) :=
  match s.cache.leaves? id target with
  | none => return s
  | some origin => do
    let (s, evicted) := s.evict id origin
    Logged.event (.movedUnremoved id origin target evicted)
    return s

def noteReplaced (block : Block) (old? : Option Machine) (id : MachineId) : Logged Unit :=
  match old? with
  | none => return ()
  | some old => if old.id = id then return () else Logged.event (.replaced block old.id id)

/-- Puts a machine at a location, in place of what was there. -/
def save (s : Storage σ) (location : Location) (machine : Machine) :
    Logged (Storage σ × Except Error Unit) :=
  let block := location.block
  match checkSaveable block machine with
  | .error e => return (s, .error (.precondition e))
  | .ok () => do
    if machine.location ≠ block then
      Logged.event (.misreported block machine.location machine.id)
    s.withChunk block.partition fun s chunk =>
      match chunk.save block machine with
      | .error e => return (s, .error e)
      | .ok saved => do
        let s ← (s.putChunk block.partition saved).leave machine.id block
        noteReplaced block (chunk.machine? block) machine.id
        return ({ s with cache := s.cache.insert machine.id block }, .ok ())

/-- Clears a location and answers the machine that stood there. -/
def remove (s : Storage σ) (location : Location) :
    Logged (Storage σ × Except Error (Option Machine)) :=
  let block := location.block
  s.withChunk block.partition fun s chunk => do
    let removed := chunk.machine? block
    if let some machine := removed then
      if let some cached := s.cache.idAt? block then
        if machine.id ≠ cached then Logged.event (.removedUncached block machine.id cached)
    return ({ s.putChunk block.partition (chunk.remove block) with
      cache := s.cache.eraseBlock block }, .ok removed)

/-- The machines of a partition in ascending order of blocks. -/
def machinesOf (s : Storage σ) (partition : Partition) :
    Logged (Storage σ × Except Error (List Machine)) :=
  s.withChunk partition fun s chunk => return (s, .ok (chunk.machines.map Prod.snd))

end MachineVault.Storage
