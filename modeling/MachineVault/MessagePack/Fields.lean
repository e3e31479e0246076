import MachineVault.MessagePack.Value
import MachineVault.Text.Utf8

/-! Reading structures, numbers and text out of MessagePack values. A structure is an array of its
fields in order, or a map from names or positions to them. -/

namespace MachineVault.MessagePack.Value

def ofText (s : String) : Value := str (Text.encode s)

def ofInt32 (n : Int32) : Value :=
  scalar (if n < 0 then .signed n.toInt64 else .unsigned n.toInt64.toUInt64)

/-- A structure with its field names. -/
def ofFields (fields : List (String × Value)) : Value :=
  map (fields.map (Prod.map ofText id))

/-- Text may be given as bytes. -/
def text? : Value → Option String
  | str bytes | bin bytes => Text.decode? bytes
  | _ => none

/-- Any integer of 32 bits, behind whatever marker. -/
def int32? : Value → Option Int32
  | scalar (.unsigned n) => if n.toNat < 2 ^ 31 then some (Int32.ofNat n.toNat) else none
  | scalar (.signed n) =>
    if -2 ^ 31 ≤ n.toInt ∧ n.toInt < 2 ^ 31 then some n.toInt32 else none
  | _ => none

/-- An empty byte string is an empty list too. -/
def items? : Value → Option (List Value)
  | array items => some items
  | bin [] => some []
  | _ => none

/-- The position of the field that a key means. A key that names no field is at the end, and a key
of another kind than text, bytes and unsigned integers is refused. -/
def position? (names : List String) : Value → Option Nat
  | str bytes | bin bytes => some ((names.map Text.encode).idxOf bytes)
  | scalar (.unsigned n) => some (min n.toNat names.length)
  | _ => none

/-- Fills an empty place; there is none for a field that is not known. -/
def place (names : List String) (slots : List (Option Value)) (field : Value × Value) :
    Option (List (Option Value)) := do
  let i ← position? names field.1
  match slots[i]? with
  | none => some slots
  | some none => some (slots.set i (some field.2))
  | some (some _) => none

/-- The fields in the order of their names. Each has to be there once. -/
def fields? (names : List String) : Value → Option (List Value)
  | array items => if items.length = names.length then some items else none
  | map fields => do
    let slots ← fields.foldlM (place names) (names.map fun _ => none)
    slots.mapM id
  | _ => none

end MachineVault.MessagePack.Value
