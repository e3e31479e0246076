import MachineVault.Machine
import MachineVault.MessagePack.Fields

/-! Records: the stored form of a machine, a MessagePack structure of four fields. Bytes behind the
structure are ignored. -/

namespace MachineVault

open MessagePack (Scalar Value)

namespace Document

mutual

def toValue : Document → Value
  | null => .scalar .nil
  | bool b => .scalar (.bool b)
  | unsigned n => .scalar (.unsigned n)
  | signed n => .scalar (.signed n)
  | float x => .scalar (.float x)
  | text s => .ofText s
  | list items => .array (itemValues items)
  | object fields => .map (fieldValues fields)

def itemValues : List Document → List Value
  | [] => []
  | d :: rest => d.toValue :: itemValues rest

def fieldValues : List (String × Document) → List (Value × Value)
  | [] => []
  | (k, d) :: rest => (.ofText k, d.toValue) :: fieldValues rest

end

end Document

namespace State

def encode (s : State) : Bytes := s.document.toValue.write

def ofScalar : Scalar → State
  | .nil => null
  | .bool b => bool b
  | .unsigned n => unsigned n
  | .signed n => signed n
  | .float x => float x

/-- The first key of an object has to be text; later ones may be given as bytes. -/
def key? : (isFirst : Bool) → Value → Option String
  | _, .str bytes => Text.decode? bytes
  | false, .bin bytes => Text.decode? bytes
  | _, _ => none

mutual

/-- Bytes and extensions have no place in a state. -/
def ofValue? : Value → Option State
  | .scalar s => some (ofScalar s)
  | .str bytes => (Text.decode? bytes).map text
  | .bin _ | .ext _ _ => none
  | .array items => (ofItems? items).map list
  | .map fields => (ofFields? true fields).map object

def ofItems? : List Value → Option (List State)
  | [] => some []
  | v :: rest =>
    match ofValue? v, ofItems? rest with
    | some s, some states => some (s :: states)
    | _, _ => none

def ofFields? : (isFirst : Bool) → List (Value × Value) → Option (List (String × State))
  | _, [] => some []
  | isFirst, (k, v) :: rest =>
    match key? isFirst k, ofValue? v, ofFields? false rest with
    | some key, some s, some fields => some ((key, s) :: fields)
    | _, _, _ => none

end

end State

/-- Identifiers are bytes. Text of the same length is accepted only where it is not UTF-8. -/
def MachineId.ofValue? : Value → Option MachineId
  | .bin bytes => ofBytes? bytes
  | .str bytes => if (Text.decode? bytes).isNone then ofBytes? bytes else none
  | _ => none

namespace Block

def toValue (b : Block) : Value :=
  .ofFields [("world", .ofText b.world), ("x", .ofInt32 b.x), ("y", .ofInt32 b.y),
    ("z", .ofInt32 b.z)]

def ofValue? (v : Value) : Option Block := do
  match ← v.fields? ["world", "x", "y", "z"] with
  | [world, x, y, z] => return ⟨← world.text?, ← x.int32?, ← y.int32?, ← z.int32?⟩
  | _ => none

end Block

namespace Machine

def toValue (m : Machine) : Value :=
  .ofFields [("uuid", .bin m.id.bytes), ("type", .ofText m.typeTag), ("loc", m.location.toValue),
    ("state", m.state.document.toValue)]

def ofValue? (v : Value) : Option Machine := do
  match ← v.fields? ["uuid", "type", "loc", "state"] with
  | [id, typeTag, location, state] =>
    return ⟨← MachineId.ofValue? id, ← typeTag.text?, ← Block.ofValue? location,
      ← State.ofValue? state⟩
  | _ => none

/-- How deep a record that can be read again may be nested, the record itself included. -/
def nestingLimit : Nat := 1023

def encode (m : Machine) : Bytes := m.toValue.write

def decode (bytes : Bytes) : Except Error Machine :=
  match (Value.read nestingLimit bytes).bind fun (v, _) => ofValue? v with
  | some m => .ok m
  | none => .error (.record .undecodable)

end Machine

end MachineVault
