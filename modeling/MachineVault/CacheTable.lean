import MachineVault.Record

/-! The stored form of the identifier cache: a table of machines and the blocks they stand on. -/

namespace MachineVault

open MessagePack (Value)

structure CacheEntry where
  id : MachineId
  location : Block
deriving DecidableEq

namespace CacheEntry

def toValue (e : CacheEntry) : Value :=
  .ofFields [("id", .bin e.id.bytes), ("location", e.location.toValue)]

def ofValue? (v : Value) : Option CacheEntry := do
  match ← v.fields? ["id", "location"] with
  | [id, location] => return ⟨← MachineId.ofValue? id, ← Block.ofValue? location⟩
  | _ => none

end CacheEntry

/-- Entries in the order in which they were written. -/
structure CacheTable where
  entries : List CacheEntry := []
deriving DecidableEq

namespace CacheTable

def toValue (t : CacheTable) : Value :=
  .ofFields [("entries", .array (t.entries.map CacheEntry.toValue))]

def ofValue? (v : Value) : Option CacheTable := do
  match ← v.fields? ["entries"] with
  | [entries] => return ⟨← (← entries.items?).mapM CacheEntry.ofValue?⟩
  | _ => none

def encode (t : CacheTable) : Bytes := t.toValue.write

def decode (bytes : Bytes) : Except Error CacheTable :=
  match (Value.read Machine.nestingLimit bytes).bind fun (v, _) => ofValue? v with
  | some t => .ok t
  | none => .error (.persistence .undecodableTable)

end CacheTable

end MachineVault
