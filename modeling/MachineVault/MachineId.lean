import Std.Data.ExtTreeMap.Lemmas
import MachineVault.Text.Hex

/-! Machine identifiers: sixteen bytes, ordered as bytes. The written form groups the hexadecimal
digits 8-4-4-4-12; three other spellings are read as well. -/

namespace MachineVault

structure MachineId where
  bytes : Bytes
  length_bytes : bytes.length = 16
deriving DecidableEq

namespace MachineId

def ofBytes? (bytes : Bytes) : Option MachineId :=
  if h : bytes.length = 16 then some ⟨bytes, h⟩ else none

@[simp] theorem ofBytes?_bytes (id : MachineId) : ofBytes? id.bytes = some id := by
  simp [ofBytes?, id.length_bytes]

instance : Ord MachineId := ⟨compareOn MachineId.bytes⟩

instance : Std.TransOrd MachineId := inferInstanceAs (Std.TransCmp (compareOn MachineId.bytes))

instance : Std.LawfulEqOrd MachineId where
  eq_of_compare {a b} h := by
    cases a
    cases b
    congr 1
    exact Std.LawfulEqOrd.eq_of_compare h

/-- Marks a number of 128 bits as a random identifier: version 4 in the seventh byte, the standard
variant in the ninth. -/
def ofRandom (n : Nat) : MachineId where
  bytes := ((bigEndian 16 n).modify 6 fun b => b &&& 0x0F ||| 0x40).modify 8 fun b =>
    b &&& 0x3F ||| 0x80
  length_bytes := by simp

/-- A fresh identifier and the generator for the next one. -/
def random (gen : StdGen) : MachineId × StdGen :=
  let (n, gen) := randNat gen 0 (2 ^ 128 - 1)
  (ofRandom n, gen)

/-- Group lengths of the hyphenated form. -/
def groups : List Nat := [8, 4, 4, 4, 12]

/-- Puts a hyphen between the groups. -/
def hyphenate : List Nat → List Char → List Char
  | [], digits => digits
  | [_], digits => digits
  | n :: rest, digits => digits.take n ++ '-' :: hyphenate rest (digits.drop n)

/-- Takes the hyphens out again, if they stand between the groups and nowhere else. -/
def unhyphenate? : List Nat → List Char → Option (List Char)
  | [], text => if text.isEmpty then some [] else none
  | [n], text => if text.length = n then some text else none
  | n :: rest, text =>
    match text.drop n with
    | '-' :: after => (unhyphenate? rest after).map (text.take n ++ ·)
    | _ => none

instance : ToString MachineId :=
  ⟨fun id => String.ofList (hyphenate groups (Text.hexChars id.bytes))⟩

def urnLead : List Char := ['u', 'r', 'n', ':', 'u', 'u', 'i', 'd', ':']

/-- The digits of an identifier: bare, hyphenated, hyphenated in braces, or hyphenated behind
`urn:uuid:` in any case. -/
def digits? (text : List Char) : Option (List Char) :=
  if text.length = 32 then some text
  else if text.length = 38 ∧ text.head? = some '{' ∧ text.getLast? = some '}' then
    unhyphenate? groups (text.tail.dropLast)
  else if text.length = 45 ∧ (text.take 9).map Char.toLower = urnLead then
    unhyphenate? groups (text.drop 9)
  else unhyphenate? groups text

def parse? (text : String) : Option MachineId := do
  let digits ← digits? text.toList
  ofBytes? (← Text.readHex? digits)

end MachineId

end MachineVault
