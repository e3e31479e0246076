import MachineVault.Error
import MachineVault.Text.Utf8

/-! Length-prefixed binary formats. A reader takes values off the front of a byte string and stops
at the first fault; a whole buffer has to be used up. -/

namespace MachineVault

abbrev Reader (α : Type) := StateT Bytes (Except FormatError) α

namespace Reader

/-- The next `n` bytes. -/
def take (n : Nat) (field : Field) : Reader Bytes := fun bytes =>
  match splitBytes? n bytes with
  | some split => .ok split
  | none => .error (.truncated field)

def byte (field : Field) : Reader UInt8 := fun bytes =>
  match bytes with
  | [] => .error (.truncated field)
  | b :: rest => .ok (b, rest)

/-- A big-endian number of 32 bits. -/
def word (field : Field) : Reader Nat := do
  return fromBigEndian (← take 4 field)

/-- A big-endian number of 32 bits in two's complement. -/
def signedWord (field : Field) : Reader Int32 := do
  return (UInt32.ofNat (← word field)).toInt32

/-- As many bytes as the word in front of them says. -/
def counted (lengthField field : Field) : Reader Bytes := do
  take (← word lengthField) field

/-- Counted UTF-8. -/
def text (field : Field) : Reader String := do
  match Text.decode? (← counted field field) with
  | some s => return s
  | none => throw (.invalidUtf8 field)

def replicate {α : Type} (r : Reader α) : Nat → Reader (List α)
  | 0 => return []
  | n + 1 => do
    let a ← r
    return a :: (← replicate r n)

/-- Reads a whole buffer: nothing may follow the value. -/
def run {α : Type} (r : Reader α) (bytes : Bytes) : Except FormatError α := do
  let (a, rest) ← StateT.run r bytes
  if rest.isEmpty then return a else throw (.trailingBytes rest.length)

end Reader

/-- A length as a word, if it fits. -/
def lengthWord (n : Nat) (field : Field) : Except FormatError Bytes :=
  if n < 2 ^ 32 then .ok (bigEndian 4 n) else .error (.outOfRange field n)

/-- Bytes behind their length. -/
def countedBytes (bytes : Bytes) (field : Field) : Except FormatError Bytes := do
  return (← lengthWord bytes.length field) ++ bytes

def signedWordBytes (n : Int32) : Bytes := bigEndian 4 n.toUInt32.toNat

end MachineVault
