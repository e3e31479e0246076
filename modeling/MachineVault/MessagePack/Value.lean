import MachineVault.Binary64
import MachineVault.Bytes

/-! MessagePack. Every value has one shortest written form. Reading takes any form and stops at the
end of the value; values nested beyond a limit are refused. -/

namespace MachineVault.MessagePack

inductive Scalar
  | nil
  | bool (b : Bool)
  /-- An integer behind an unsigned marker. -/
  | unsigned (n : UInt64)
  /-- An integer behind a signed marker. -/
  | signed (n : Int64)
  | float (x : Binary64)
deriving DecidableEq

inductive Value
  | scalar (s : Scalar)
  | str (bytes : Bytes)
  | bin (bytes : Bytes)
  | ext (kind : UInt8) (bytes : Bytes)
  | array (items : List Value)
  | map (fields : List (Value × Value))

/-- What stands in front of a value's contents: a whole scalar, or a kind and a length. -/
inductive Head
  | scalar (s : Scalar)
  | str (length : Nat)
  | bin (length : Nat)
  | ext (kind : UInt8) (length : Nat)
  | array (length : Nat)
  | map (length : Nat)
deriving DecidableEq

/-- The number of `width` bytes in two's complement that stands for `n`. -/
def twosComplement (width : Nat) (n : Int) : Nat := (n % 256 ^ width).toNat

/-- The signed number that `n` stands for in two's complement of `width` bytes. -/
def fromTwosComplement (width n : Nat) : Int :=
  if 2 * n < 256 ^ width then n else n - 256 ^ width

namespace Head

def writeUnsigned (n : Nat) : Bytes :=
  if n < 2 ^ 7 then [UInt8.ofNat n]
  else if n < 2 ^ 8 then 0xCC :: bigEndian 1 n
  else if n < 2 ^ 16 then 0xCD :: bigEndian 2 n
  else if n < 2 ^ 32 then 0xCE :: bigEndian 4 n
  else 0xCF :: bigEndian 8 n

def writeSigned (n : Int) : Bytes :=
  if -32 ≤ n ∧ n < 0 then bigEndian 1 (twosComplement 1 n)
  else if -2 ^ 7 ≤ n ∧ n < 2 ^ 7 then 0xD0 :: bigEndian 1 (twosComplement 1 n)
  else if -2 ^ 15 ≤ n ∧ n < 2 ^ 15 then 0xD1 :: bigEndian 2 (twosComplement 2 n)
  else if -2 ^ 31 ≤ n ∧ n < 2 ^ 31 then 0xD2 :: bigEndian 4 (twosComplement 4 n)
  else 0xD3 :: bigEndian 8 (twosComplement 8 n)

def writeScalar : Scalar → Bytes
  | .nil => [0xC0]
  | .bool false => [0xC2]
  | .bool true => [0xC3]
  | .unsigned n => writeUnsigned n.toNat
  | .signed n => writeSigned n.toInt
  | .float x => 0xCB :: bigEndian 8 x.bits.toNat

/-- A length in one, two or four bytes behind the marker of that width. -/
def writeLength (byte half word : UInt8) (n : Nat) : Bytes :=
  if n < 2 ^ 8 then byte :: bigEndian 1 n
  else if n < 2 ^ 16 then half :: bigEndian 2 n
  else word :: bigEndian 4 n

/-- A count of items in two or four bytes behind the marker of that width. -/
def writeCount (half word : UInt8) (n : Nat) : Bytes :=
  if n < 2 ^ 16 then half :: bigEndian 2 n else word :: bigEndian 4 n

/-- The shortest form. Lengths have to be below 2 ^ 32. -/
def write : Head → Bytes
  | scalar s => writeScalar s
  | str n => if n < 32 then [UInt8.ofNat (0xA0 + n)] else writeLength 0xD9 0xDA 0xDB n
  | bin n => writeLength 0xC4 0xC5 0xC6 n
  | ext kind n => writeLength 0xC7 0xC8 0xC9 n ++ [kind]
  | array n => if n < 16 then [UInt8.ofNat (0x90 + n)] else writeCount 0xDC 0xDD n
  | map n => if n < 16 then [UInt8.ofNat (0x80 + n)] else writeCount 0xDE 0xDF n

/-- A head that depends on a number of `width` bytes. -/
def readNumber (width : Nat) (head : Nat → Head) (bytes : Bytes) : Option (Head × Bytes) :=
  match splitBytes? width bytes with
  | some (number, rest) => some (head (fromBigEndian number), rest)
  | none => none

def readSigned (width : Nat) : Bytes → Option (Head × Bytes) :=
  readNumber width fun n => scalar (.signed (Int64.ofInt (fromTwosComplement width n)))

def readKind (length : Nat) : Bytes → Option (Head × Bytes)
  | kind :: rest => some (ext kind length, rest)
  | [] => none

/-- The length of an extension stands in front of its kind. -/
def readExt (width : Nat) (bytes : Bytes) : Option (Head × Bytes) :=
  match splitBytes? width bytes with
  | some (length, rest) => readKind (fromBigEndian length) rest
  | none => none

/-- Every marker has a meaning except `C1`. -/
def readMarker (marker : Nat) (rest : Bytes) : Option (Head × Bytes) :=
  if marker < 0x80 then some (scalar (.unsigned (UInt64.ofNat marker)), rest)
  else if marker < 0x90 then some (map (marker - 0x80), rest)
  else if marker < 0xA0 then some (array (marker - 0x90), rest)
  else if marker < 0xC0 then some (str (marker - 0xA0), rest)
  else if 0xE0 ≤ marker then
    some (scalar (.signed (Int64.ofInt (fromTwosComplement 1 marker))), rest)
  else match marker with
  | 0xC0 => some (scalar .nil, rest)
  | 0xC2 => some (scalar (.bool false), rest)
  | 0xC3 => some (scalar (.bool true), rest)
  | 0xC4 => readNumber 1 bin rest
  | 0xC5 => readNumber 2 bin rest
  | 0xC6 => readNumber 4 bin rest
  | 0xC7 => readExt 1 rest
  | 0xC8 => readExt 2 rest
  | 0xC9 => readExt 4 rest
  | 0xCA => readNumber 4 (fun n => scalar (.float (.ofBinary32 (UInt32.ofNat n)))) rest
  | 0xCB => readNumber 8 (fun n => scalar (.float ⟨UInt64.ofNat n⟩)) rest
  | 0xCC => readNumber 1 (fun n => scalar (.unsigned (UInt64.ofNat n))) rest
  | 0xCD => readNumber 2 (fun n => scalar (.unsigned (UInt64.ofNat n))) rest
  | 0xCE => readNumber 4 (fun n => scalar (.unsigned (UInt64.ofNat n))) rest
  | 0xCF => readNumber 8 (fun n => scalar (.unsigned (UInt64.ofNat n))) rest
  | 0xD0 => readSigned 1 rest
  | 0xD1 => readSigned 2 rest
  | 0xD2 => readSigned 4 rest
  | 0xD3 => readSigned 8 rest
  | 0xD4 => readKind 1 rest
  | 0xD5 => readKind 2 rest
  | 0xD6 => readKind 4 rest
  | 0xD7 => readKind 8 rest
  | 0xD8 => readKind 16 rest
  | 0xD9 => readNumber 1 str rest
  | 0xDA => readNumber 2 str rest
  | 0xDB => readNumber 4 str rest
  | 0xDC => readNumber 2 array rest
  | 0xDD => readNumber 4 array rest
  | 0xDE => readNumber 2 map rest
  | 0xDF => readNumber 4 map rest
  | _ => none

def read : Bytes → Option (Head × Bytes)
  | [] => none
  | marker :: rest => readMarker marker.toNat rest

end Head

namespace Value

mutual

def write : Value → Bytes
  | scalar s => Head.write (.scalar s)
  | str bytes => Head.write (.str bytes.length) ++ bytes
  | bin bytes => Head.write (.bin bytes.length) ++ bytes
  | ext kind bytes => Head.write (.ext kind bytes.length) ++ bytes
  | array items => Head.write (.array items.length) ++ writeItems items
  | map fields => Head.write (.map fields.length) ++ writeFields fields

def writeItems : List Value → Bytes
  | [] => []
  | v :: rest => write v ++ writeItems rest

def writeFields : List (Value × Value) → Bytes
  | [] => []
  | (k, v) :: rest => write k ++ (write v ++ writeFields rest)

end

/-- Reads `n` items and puts them behind those in `done`, which stand in reverse. -/
def readMany {α : Type} (item : Bytes → Option (α × Bytes)) :
    (n : Nat) → (done : List α) → Bytes → Option (List α × Bytes)
  | 0, done, bytes => some (done.reverse, bytes)
  | n + 1, done, bytes =>
    match item bytes with
    | some (a, rest) => readMany item n (a :: done) rest
    | none => none

def readPair (item : Bytes → Option (Value × Bytes)) (bytes : Bytes) :
    Option ((Value × Value) × Bytes) := do
  let (k, bytes) ← item bytes
  let (v, bytes) ← item bytes
  return ((k, v), bytes)

/-- The value at the front. Arrays, maps and extensions may stand at most `limit` deep. -/
def read (limit : Nat) (bytes : Bytes) : Option (Value × Bytes) :=
  match Head.read bytes, limit with
  | none, _ => none
  | some (.scalar s, rest), _ => some (scalar s, rest)
  | some (.str n, rest), _ => (splitBytes? n rest).map (Prod.map str id)
  | some (.bin n, rest), _ => (splitBytes? n rest).map (Prod.map bin id)
  | some (.ext kind n, rest), _ + 1 => (splitBytes? n rest).map (Prod.map (ext kind) id)
  | some (.array n, rest), limit + 1 => (readMany (read limit) n [] rest).map (Prod.map array id)
  | some (.map n, rest), limit + 1 =>
    (readMany (readPair (read limit)) n [] rest).map (Prod.map map id)
  | some _, 0 => none

end Value

end MachineVault.MessagePack
