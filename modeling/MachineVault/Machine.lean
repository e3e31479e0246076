import MachineVault.Document
import MachineVault.Error

/-! Machines and the factories that bring them back from their recorded parts. -/

namespace MachineVault

/-- A machine as storage sees it, and as a record keeps it. -/
structure Machine where
  id : MachineId
  typeTag : String
  /-- The block the machine believes it occupies. -/
  location : Block
  state : State
deriving DecidableEq

/-- Rebuilds a machine from the recorded location, identifier and state. -/
abbrev Factory := Block → MachineId → State → Except Error Machine

/-- Gives back the recorded parts under a fixed tag. -/
def Factory.verbatim (tag : String) : Factory := fun location id state =>
  .ok { id, typeTag := tag, location, state }

/-- Factories by type tag. -/
structure Registry where
  factories : Std.ExtTreeMap String Factory := ∅

namespace Registry

/-- A tag has to be free: replacing a factory takes an `unregister` first. -/
def register (r : Registry) (tag : String) (factory : Factory) : Except Error Registry :=
  if tag.isEmpty then .error (.precondition .unregistrableTag)
  else if r.factories.contains tag then .error (.precondition (.alreadyRegistered tag))
  else .ok ⟨r.factories.insert tag factory⟩

def unregister (r : Registry) (tag : String) : Registry := ⟨r.factories.erase tag⟩

def contains (r : Registry) (tag : String) : Bool := r.factories.contains tag

def resolve? (r : Registry) (tag : String) : Option Factory := r.factories[tag]?

/-- The registered tags in ascending order. -/
def typeTags (r : Registry) : List String := r.factories.keys

def size (r : Registry) : Nat := r.factories.size

/-- Rebuilds a recorded machine through the factory of its tag. -/
def rebuild (r : Registry) (m : Machine) : Except Error Machine :=
  match r.resolve? m.typeTag with
  | none => .error (.unknownType m.typeTag)
  | some factory => factory m.location m.id m.state

def summary (r : Registry) : String :=
  let tags := ", ".intercalate (r.typeTags.map Text.quote)
  s!"MachineRegistry \x7b factory_count: {r.size}, type_tags: [{tags}] \x7d"

end Registry

end MachineVault
