import MachineVault.CacheTable
import MachineVault.Config

/-! Values of the library as state documents, for hosts that exchange them as such. A structure is
an object by field names; a list of its fields in order is read as well. -/

namespace MachineVault

namespace Document

def text? : Document → Option String
  | text s => some s
  | _ => none

def flag? : Document → Option Bool
  | bool b => some b
  | _ => none

def int32? : Document → Option Int32
  | unsigned n => if n.toNat < 2 ^ 31 then some (Int32.ofNat n.toNat) else none
  | signed n => if -2 ^ 31 ≤ n.toInt ∧ n.toInt < 2 ^ 31 then some n.toInt32 else none
  | _ => none

/-- Any number, rounded to the nearest double. -/
def number? : Document → Option Binary64
  | float x => some x
  | unsigned n => some (.ofInt n.toNat)
  | signed n => some (.ofInt n.toInt)
  | _ => none

def items? : Document → Option (List Document)
  | list items => some items
  | _ => none

/-- The fields in the order of their names. Fields of other names are ignored. -/
def fields? (names : List String) : Document → Option (List Document)
  | object fields => names.mapM fun name => fields.lookup name
  | list items => if items.length = names.length then some items else none
  | _ => none

/-- The fields that are there. A list may end early. -/
def optionalFields? (names : List String) : Document → Option (List (Option Document))
  | object fields => some (names.map fun name => fields.lookup name)
  | list items =>
    if items.length ≤ names.length then
      some (items.map some ++ List.replicate (names.length - items.length) none)
    else none
  | _ => none

end Document

namespace State

def int32 (n : Int32) : State := signed n.toInt64

end State

namespace MachineId

def toState (id : MachineId) : State := .text (toString id)

def ofDocument? (d : Document) : Option MachineId := d.text?.bind parse?

end MachineId

namespace ChunkPos

def toState (c : ChunkPos) : State := .object [("x", .int32 c.x), ("z", .int32 c.z)]

def ofDocument? (d : Document) : Option ChunkPos := do
  match ← d.fields? ["x", "z"] with
  | [x, z] => return ⟨← x.int32?, ← z.int32?⟩
  | _ => none

end ChunkPos

namespace Partition

def toState (p : Partition) : State :=
  .object [("world", .text p.world), ("chunk", p.chunk.toState)]

def ofDocument? (d : Document) : Option Partition := do
  match ← d.fields? ["world", "chunk"] with
  | [world, chunk] => return ⟨← world.text?, ← ChunkPos.ofDocument? chunk⟩
  | _ => none

end Partition

namespace Block

def toState (b : Block) : State :=
  .object [("world", .text b.world), ("x", .int32 b.x), ("y", .int32 b.y), ("z", .int32 b.z)]

def ofDocument? (d : Document) : Option Block := do
  match ← d.fields? ["world", "x", "y", "z"] with
  | [world, x, y, z] => return ⟨← world.text?, ← x.int32?, ← y.int32?, ← z.int32?⟩
  | _ => none

end Block

namespace Location

def toState (l : Location) : State :=
  .object [("world", .text l.world), ("x", .float l.x), ("y", .float l.y), ("z", .float l.z)]

def ofDocument? (d : Document) : Option Location := do
  match ← d.fields? ["world", "x", "y", "z"] with
  | [world, x, y, z] => return ⟨← world.text?, ← x.number?, ← y.number?, ← z.number?⟩
  | _ => none

end Location

namespace CacheEntry

def toState (e : CacheEntry) : State :=
  .object [("id", e.id.toState), ("location", e.location.toState)]

def ofDocument? (d : Document) : Option CacheEntry := do
  match ← d.fields? ["id", "location"] with
  | [id, location] => return ⟨← MachineId.ofDocument? id, ← Block.ofDocument? location⟩
  | _ => none

end CacheEntry

namespace CacheTable

def toState (t : CacheTable) : State :=
  .object [("entries", .list (t.entries.map CacheEntry.toState))]

def ofDocument? (d : Document) : Option CacheTable := do
  match ← d.fields? ["entries"] with
  | [entries] => return ⟨← (← entries.items?).mapM CacheEntry.ofDocument?⟩
  | _ => none

end CacheTable

namespace Machine

def toState (m : Machine) : State :=
  .object [("uuid", m.id.toState), ("type", .text m.typeTag), ("loc", m.location.toState),
    ("state", m.state)]

def ofDocument? (d : Document) : Option Machine := do
  match ← d.fields? ["uuid", "type", "loc", "state"] with
  | [id, typeTag, location, state] =>
    return ⟨← MachineId.ofDocument? id, ← typeTag.text?, ← Block.ofDocument? location,
      State.ofDocument state⟩
  | _ => none

end Machine

namespace Config

def toState (c : Config) : State :=
  .object [("index_tag", .text c.indexTag), ("data_tag", .text c.dataTag),
    ("verify_consistency_on_load", .bool c.verifyOnLoad),
    ("preserve_unknown_records", .bool c.preserveUnknown),
    ("log_flush_counts", .bool c.logFlushCounts)]

/-- A field that is missing has its default. -/
def fieldOr {α : Type} (default : α) (read : Document → Option α) : Option Document → Option α
  | none => some default
  | some d => read d

/-- Reads the settings without judging them. -/
def ofDocument? (d : Document) : Option Config := do
  let names := ["index_tag", "data_tag", "verify_consistency_on_load", "preserve_unknown_records",
    "log_flush_counts"]
  let base : Config := {}
  match ← d.optionalFields? names with
  | [indexTag, dataTag, verify, preserve, counts] =>
    return {
      indexTag := ← fieldOr base.indexTag Document.text? indexTag
      dataTag := ← fieldOr base.dataTag Document.text? dataTag
      verifyOnLoad := ← fieldOr base.verifyOnLoad Document.flag? verify
      preserveUnknown := ← fieldOr base.preserveUnknown Document.flag? preserve
      logFlushCounts := ← fieldOr base.logFlushCounts Document.flag? counts }
  | _ => none

end Config

end MachineVault
