import MachineVault.Bytes

/-! Hexadecimal text: numbers without padding, bytes as two digits each. Digits are written in
lower case and read in either. -/

namespace MachineVault.Text

def hexDigit (n : Nat) : Char := (n % 16).digitChar

/-- The shortest hexadecimal form. -/
def hexNat (n : Nat) : String := String.ofList (Nat.toDigits 16 n)

def hexChars (bytes : Bytes) : List Char :=
  bytes.flatMap fun b => [hexDigit (b.toNat / 16), hexDigit b.toNat]

def hexBytes (bytes : Bytes) : String := String.ofList (hexChars bytes)

def hexValue? (c : Char) : Option Nat :=
  if '0' ≤ c ∧ c ≤ '9' then some (c.toNat - '0'.toNat)
  else if 'a' ≤ c ∧ c ≤ 'f' then some (c.toNat - 'a'.toNat + 10)
  else if 'A' ≤ c ∧ c ≤ 'F' then some (c.toNat - 'A'.toNat + 10)
  else none

/-- Refuses an odd number of digits. -/
def readHex? : List Char → Option Bytes
  | [] => some []
  | high :: low :: rest => do
    let h ← hexValue? high
    let l ← hexValue? low
    return UInt8.ofNat (h * 16 + l) :: (← readHex? rest)
  | [_] => none

private theorem hexValue?_hexDigit : ∀ n < 16, hexValue? (hexDigit n) = some n := by
  decide

theorem readHex?_hexChars (bytes : Bytes) : readHex? (hexChars bytes) = some bytes := by
  induction bytes with
  | nil => rfl
  | cons b bytes ih =>
    have hb : b.toNat < 256 := b.toNat_lt
    have hm : hexDigit b.toNat = hexDigit (b.toNat % 16) := by simp [hexDigit]
    have hs : b.toNat / 16 * 16 + b.toNat % 16 = b.toNat := by omega
    simp only [hexChars, List.flatMap_cons, List.cons_append, List.nil_append] at ih ⊢
    rw [readHex?, hm, hexValue?_hexDigit _ (by omega), hexValue?_hexDigit _ (by omega), ih]
    change some (UInt8.ofNat (b.toNat / 16 * 16 + b.toNat % 16) :: bytes) = some (b :: bytes)
    rw [hs, UInt8.ofNat_toNat]

end MachineVault.Text
