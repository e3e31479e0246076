import MachineVault.CacheTable
import MachineVault.Event

/-! The identifier cache: where each machine stands, in both directions. A machine stands on one
block and a block carries one machine. -/

namespace MachineVault

structure IdentifierCache where
  byId : Std.ExtTreeMap MachineId Block
  byBlock : Std.ExtTreeMap Block MachineId
  inverse : ∀ (id : MachineId) (block : Block), byId[id]? = some block ↔ byBlock[block]? = some id

namespace IdentifierCache

def empty : IdentifierCache := ⟨∅, ∅, by simp⟩

instance : Inhabited IdentifierCache := ⟨empty⟩

def locationOf? (cache : IdentifierCache) (id : MachineId) : Option Block := cache.byId[id]?

def idAt? (cache : IdentifierCache) (block : Block) : Option MachineId := cache.byBlock[block]?

def contains (cache : IdentifierCache) (block : Block) : Bool := cache.byBlock.contains block

def size (cache : IdentifierCache) : Nat := cache.byId.size

/-- The occupied blocks in ascending order. -/
def blocks (cache : IdentifierCache) : List Block := cache.byBlock.keys

private theorem inverse_erase {cache : IdentifierCache} {id : MachineId} {block : Block}
    (h : cache.byId[id]? = some block) (id' : MachineId) (block' : Block) :
    (cache.byId.erase id)[id']? = some block' ↔ (cache.byBlock.erase block)[block']? = some id' := by
  have hb := (cache.inverse id block).mp h
  simp only [Std.ExtTreeMap.getElem?_erase, Std.LawfulEqCmp.compare_eq_iff_eq]
  by_cases hi : id = id'
  · subst hi
    rw [if_pos rfl]
    split
    · exact iff_of_false (by simp) (by simp)
    · rename_i hne
      refine iff_of_false (by simp) fun h' => hne ?_
      rw [(cache.inverse id block').mpr h'] at h
      exact (Option.some.inj h).symm
  · rw [if_neg hi]
    split
    · rename_i heq
      subst heq
      refine iff_of_false (fun h' => hi ?_) (by simp)
      rw [(cache.inverse id' block).mp h'] at hb
      exact (Option.some.inj hb).symm
    · exact cache.inverse id' block'

/-- Forgets the machine on a block. -/
def eraseBlock (cache : IdentifierCache) (block : Block) : IdentifierCache :=
  match h : cache.byBlock[block]? with
  | none => cache
  | some id =>
    ⟨cache.byId.erase id, cache.byBlock.erase block, inverse_erase ((cache.inverse id block).mpr h)⟩

/-- Forgets a machine. -/
def eraseId (cache : IdentifierCache) (id : MachineId) : IdentifierCache :=
  match h : cache.byId[id]? with
  | none => cache
  | some block => ⟨cache.byId.erase id, cache.byBlock.erase block, inverse_erase h⟩

theorem locationOf?_eraseBlock (cache : IdentifierCache) (block : Block) (id : MachineId) :
    (cache.eraseBlock block).locationOf? id =
      if cache.locationOf? id = some block then none else cache.locationOf? id := by
  have h := cache.inverse id block
  simp only [locationOf?, eraseBlock]
  split
  · grind
  · rename_i id' hb
    have h' := (cache.inverse id' block).mpr hb
    simp only [Std.ExtTreeMap.getElem?_erase, Std.LawfulEqCmp.compare_eq_iff_eq]
    by_cases hi : id' = id
    · subst hi
      simp [h']
    · have hn : cache.byId[id]? ≠ some block := fun hl => by
        rw [h.mp hl] at hb
        exact hi (Option.some.inj hb).symm
      simp [hi, hn]

theorem idAt?_eraseBlock (cache : IdentifierCache) (block block' : Block) :
    (cache.eraseBlock block).idAt? block' = if block' = block then none else cache.idAt? block' := by
  simp only [idAt?, eraseBlock]
  split <;> grind

theorem locationOf?_eraseId (cache : IdentifierCache) (id id' : MachineId) :
    (cache.eraseId id).locationOf? id' = if id' = id then none else cache.locationOf? id' := by
  simp only [locationOf?, eraseId]
  split <;> grind

theorem idAt?_eraseId (cache : IdentifierCache) (id : MachineId) (block : Block) :
    (cache.eraseId id).idAt? block =
      if cache.idAt? block = some id then none else cache.idAt? block := by
  have h := cache.inverse id block
  simp only [idAt?, eraseId]
  split
  · grind
  · rename_i block' hb
    have h' := (cache.inverse id block').mp hb
    simp only [Std.ExtTreeMap.getElem?_erase, Std.LawfulEqCmp.compare_eq_iff_eq]
    by_cases hi : block' = block
    · subst hi
      simp [h']
    · have hn : cache.byBlock[block]? ≠ some id := fun hl => by
        rw [h.mpr hl] at hb
        exact hi (Option.some.inj hb).symm
      simp [hi, hn]

/-- Places a machine on a block. It leaves the block it stood on, and a machine that stood there
is forgotten. -/
def insert (cache : IdentifierCache) (id : MachineId) (block : Block) : IdentifierCache :=
  let free := (cache.eraseBlock block).eraseId id
  ⟨free.byId.insert id block, free.byBlock.insert block id, by
    intro id' block'
    have h := free.inverse id' block'
    have hid : free.locationOf? id = none := by simp [free, locationOf?_eraseId]
    have hblock : free.idAt? block = none := by simp [free, idAt?_eraseId, idAt?_eraseBlock]
    simp only [locationOf?, idAt?] at hid hblock
    grind⟩

theorem locationOf?_insert (cache : IdentifierCache) (id id' : MachineId) (block : Block) :
    (cache.insert id block).locationOf? id' =
      if id' = id then some block
      else if cache.locationOf? id' = some block then none
      else cache.locationOf? id' := by
  have h : (cache.insert id block).locationOf? id' =
      if id' = id then some block else ((cache.eraseBlock block).eraseId id).locationOf? id' := by
    simp only [insert, locationOf?]
    grind
  rw [h, locationOf?_eraseId, locationOf?_eraseBlock]
  split <;> rfl

theorem idAt?_insert (cache : IdentifierCache) (id : MachineId) (block block' : Block) :
    (cache.insert id block).idAt? block' =
      if block' = block then some id
      else if cache.idAt? block' = some id then none
      else cache.idAt? block' := by
  have h : (cache.insert id block).idAt? block' =
      if block' = block then some id else ((cache.eraseBlock block).eraseId id).idAt? block' := by
    simp only [insert, idAt?]
    grind
  rw [h, idAt?_eraseId, idAt?_eraseBlock]
  split <;> rfl

/-- The block a machine would leave behind by moving to another one. -/
def leaves? (cache : IdentifierCache) (id : MachineId) (target : Block) : Option Block :=
  (cache.locationOf? id).filter (· ≠ target)

/-- The entries in ascending order of blocks. -/
def toTable (cache : IdentifierCache) : CacheTable :=
  ⟨cache.byBlock.toList.map fun (block, id) => ⟨id, block⟩⟩

/-- The machine a table entry pushes off its block. -/
def pushesOff? (cache : IdentifierCache) (entry : CacheEntry) : Option MachineId :=
  (cache.idAt? entry.location).filter (· ≠ entry.id)

def insertEntry (cache : IdentifierCache) (entry : CacheEntry) : Logged IdentifierCache := do
  if let some dropped := cache.pushesOff? entry then
    Logged.event (.tableSharesBlock entry.location entry.id dropped)
  if let some dropped := cache.leaves? entry.id entry.location then
    Logged.event (.tableRepeatsId entry.id entry.location dropped)
  return cache.insert entry.id entry.location

/-- Of conflicting entries the last one is kept. -/
def ofTable (table : CacheTable) : Logged IdentifierCache :=
  table.entries.foldlM insertEntry empty

/-- The cache that a stored table stands for; without a table it is empty. -/
def ofStored : Option CacheTable → Logged IdentifierCache
  | none => return empty
  | some table => ofTable table

end IdentifierCache

end MachineVault
