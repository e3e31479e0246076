import MachineVault.Bytes

/-! IEEE 754 double-precision numbers by their bits. Rounding down and conversion from integers
are exact integer arithmetic on the fields of the word. -/

namespace MachineVault

structure Binary64 where
  bits : UInt64
deriving DecidableEq

namespace Binary64

def isNegative (x : Binary64) : Bool := x.bits.toNat / 2 ^ 63 = 1

def exponent (x : Binary64) : Nat := x.bits.toNat / 2 ^ 52 % 2 ^ 11

def fraction (x : Binary64) : Nat := x.bits.toNat % 2 ^ 52

/-- Neither an infinity nor a NaN. -/
def isFinite (x : Binary64) : Bool := x.exponent ≠ 2047

def isNaN (x : Binary64) : Bool := x.exponent = 2047 ∧ x.fraction ≠ 0

/-- The greatest integer that a finite number reaches. Its value is a whole number of units, each
`2 ^ (e - 1075)`, where `e` is the exponent field, or 1 for the subnormal numbers. -/
def floor (x : Binary64) : Int :=
  let magnitude := if x.exponent = 0 then x.fraction else 2 ^ 52 + x.fraction
  let units : Int := if x.isNegative then -magnitude else magnitude
  let e := max x.exponent 1
  if 1075 ≤ e then units * 2 ^ (e - 1075) else units / 2 ^ (1075 - e)

/-- The nearest value in range. -/
def clampInt32 (n : Int) : Int32 := Int32.ofInt (max (-2 ^ 31) (min n (2 ^ 31 - 1)))

/-- Rounds down and keeps to the range of block coordinates. A NaN becomes zero. -/
def floorInt32 (x : Binary64) : Int32 :=
  if x.isFinite then clampInt32 x.floor
  else if x.isNaN then 0
  else if x.isNegative then Int32.minValue
  else Int32.maxValue

/-- The quotient by `2 ^ shift` rounded to nearest, a tie to the even neighbour. -/
def roundShift (n shift : Nat) : Nat :=
  let quotient := n / 2 ^ shift
  let remainder := n % 2 ^ shift
  if 2 * remainder < 2 ^ shift ∨ (2 * remainder = 2 ^ shift ∧ quotient % 2 = 0) then quotient
  else quotient + 1

/-- The number nearest to `n`, a tie to the even significand; an infinity beyond the range. -/
def ofInt (n : Int) : Binary64 :=
  let m := n.natAbs
  let k := m.log2
  let significand := if k ≤ 52 then m * 2 ^ (52 - k) else roundShift m (k - 52)
  let magnitude :=
    if m = 0 then 0
    else if 1023 < k then 2047 * 2 ^ 52
    else (1022 + k) * 2 ^ 52 + significand
  ⟨UInt64.ofNat ((if n < 0 then 2 ^ 63 else 0) + magnitude)⟩

/-- The single-precision number with these bits; every one is a double-precision number. -/
def ofBinary32 (bits : UInt32) : Binary64 :=
  let sign := bits.toNat / 2 ^ 31
  let exponent := bits.toNat / 2 ^ 23 % 2 ^ 8
  let fraction := bits.toNat % 2 ^ 23
  let magnitude :=
    if exponent = 255 then 2047 * 2 ^ 52 + fraction * 2 ^ 29
    else if exponent = 0 then
      let k := fraction.log2
      if fraction = 0 then 0 else (k + 873) * 2 ^ 52 + fraction * 2 ^ (52 - k)
    else (exponent + 896) * 2 ^ 52 + fraction * 2 ^ 29
  ⟨UInt64.ofNat (sign * 2 ^ 63 + magnitude)⟩

example : floorInt32 ⟨0xBFE0000000000000⟩ = -1 := by decide
example : (ofInt 9007199254740993).bits = 0x4340000000000000 := by decide
example : (ofBinary32 0x3DCCCCCD).bits = 0x3FB99999A0000000 := by decide

end Binary64

end MachineVault
