/-! Bare TOML values: booleans, integers, floats, dates and times. Nothing asks for the value of a
number or a time, so only its form and range are checked. -/

namespace MachineVault.Toml

inductive Value
  | string (s : String)
  | boolean (b : Bool)
  | integer
  | float
  | time
  | array
  | inlineTable
deriving DecidableEq

/-- Digits with the underscores taken out. Each underscore stands between two digits; `open` says
that a digit stands in front. -/
def digits? (isDigit : Char → Bool) : (behindDigit : Bool) → List Char → Option (List Char)
  | behindDigit, [] => if behindDigit then some [] else none
  | behindDigit, c :: cs =>
    if isDigit c then (digits? isDigit true cs).map (c :: ·)
    else if behindDigit && c = '_' then digits? isDigit false cs
    else none

/-- The number that digits spell in a base up to sixteen. -/
def numeral (base : Nat) (digits : List Char) : Nat :=
  digits.foldl (fun n c => n * base + (if c.isDigit then c.toNat - '0'.toNat
    else c.toLower.toNat - 'a'.toNat + 10)) 0

def isHexDigit (c : Char) : Bool :=
  c.isDigit || ('a' ≤ c && c ≤ 'f') || ('A' ≤ c && c ≤ 'F')

/-- Decimal digits without a superfluous zero in front. -/
def decimal? (cs : List Char) : Option (List Char) := do
  let digits ← digits? Char.isDigit false cs
  if digits.head? = some '0' ∧ digits.length ≠ 1 then none else some digits

/-- Whether there is a minus sign, and what follows the sign. -/
def splitSign : List Char → Bool × List Char
  | '-' :: cs => (true, cs)
  | '+' :: cs => (false, cs)
  | cs => (false, cs)

/-- Integers of 64 bits, signed decimal or in another base behind its mark. -/
def isInteger (cs : List Char) : Bool :=
  let inBase (base : Nat) (isDigit : Char → Bool) (digits : List Char) : Bool :=
    (digits? isDigit false digits).any fun ds => numeral base ds < 2 ^ 63
  match cs with
  | '0' :: 'x' :: digits => inBase 16 isHexDigit digits
  | '0' :: 'o' :: digits => inBase 8 (fun c => '0' ≤ c && c ≤ '7') digits
  | '0' :: 'b' :: digits => inBase 2 (fun c => c = '0' || c = '1') digits
  | _ =>
    let (negative, digits) := splitSign cs
    (decimal? digits).any fun ds => numeral 10 ds < 2 ^ 63 + if negative then 1 else 0

/-- From here on a number rounds to infinity. -/
def floatBound : Nat := (2 ^ 54 - 1) * 2 ^ 970

/-- The number `digits` times ten to the power `exponent` is below the bound. Of its order of
magnitude alone all but the numbers close to the bound are decided. -/
def isBelowBound (digits : List Char) (exponent : Int) : Bool :=
  let n := numeral 10 digits
  let top := (digits.length : Int) + exponent
  n = 0 || top < 300 ||
    (exponent ≤ 400 &&
      if 0 ≤ exponent then n * 10 ^ exponent.toNat < floatBound
      else n < floatBound * 10 ^ (-exponent).toNat)

/-- An exponent behind its mark, or none. -/
def exponent? : List Char → Option Int
  | [] => some 0
  | mark :: cs =>
    if mark = 'e' || mark = 'E' then
      let (negative, digits) := splitSign cs
      (digits? Char.isDigit false digits).map fun ds =>
        if negative then -(numeral 10 ds : Int) else numeral 10 ds
    else none

/-- A fraction behind its point, or none, and what follows. -/
def fraction? : List Char → Option (List Char × List Char)
  | '.' :: cs => do
    let isPart := fun c : Char => c.isDigit || c = '_'
    let digits ← digits? Char.isDigit false (cs.takeWhile isPart)
    return (digits, cs.dropWhile isPart)
  | cs => some ([], cs)

/-- A number with a fraction or an exponent, an infinity, or not a number. A number too great for a
double is refused unless it is negative. -/
def isFloat (cs : List Char) : Bool :=
  let (negative, cs) := splitSign cs
  let isPart := fun c : Char => c.isDigit || c = '_'
  cs = ['i', 'n', 'f'] || cs = ['n', 'a', 'n'] ||
    (cs.any (!isPart ·) &&
      ((do
        let whole ← decimal? (cs.takeWhile isPart)
        let (fraction, cs) ← fraction? (cs.dropWhile isPart)
        let exponent ← exponent? cs
        return negative || isBelowBound (whole ++ fraction) (exponent - fraction.length)
        ).getD false))

/-- Two digits that spell a number in range. -/
def isTwoDigit (low high : Nat) (a b : Char) : Bool :=
  a.isDigit && b.isDigit && low ≤ numeral 10 [a, b] && numeral 10 [a, b] ≤ high

def daysIn (year month : Nat) : Nat :=
  if month = 2 then
    if year % 4 = 0 ∧ (year % 100 ≠ 0 ∨ year % 400 = 0) then 29 else 28
  else if month = 4 ∨ month = 6 ∨ month = 9 ∨ month = 11 then 30
  else 31

def isDate : List Char → Bool
  | [y₁, y₂, y₃, y₄, '-', m₁, m₂, '-', d₁, d₂] =>
    isTwoDigit 0 99 y₁ y₂ && isTwoDigit 0 99 y₃ y₄ && isTwoDigit 1 12 m₁ m₂ &&
      isTwoDigit 1 (daysIn (numeral 10 [y₁, y₂, y₃, y₄]) (numeral 10 [m₁, m₂])) d₁ d₂
  | _ => false

/-- What follows a time of day. A second may be a leap second and may have a fraction. -/
def afterTime? : List Char → Option (List Char)
  | h₁ :: h₂ :: ':' :: m₁ :: m₂ :: ':' :: s₁ :: s₂ :: cs =>
    if isTwoDigit 0 23 h₁ h₂ && isTwoDigit 0 59 m₁ m₂ && isTwoDigit 0 60 s₁ s₂ then
      match cs with
      | '.' :: c :: cs => if c.isDigit then some (cs.dropWhile Char.isDigit) else none
      | cs => some cs
    else none
  | _ => none

def isOffset : List Char → Bool
  | [] | ['Z'] | ['z'] => true
  | [sign, h₁, h₂, ':', m₁, m₂] =>
    (sign = '+' || sign = '-') && isTwoDigit 0 23 h₁ h₂ && isTwoDigit 0 59 m₁ m₂
  | _ => false

/-- A time of day with or without an offset. -/
def isTimeOfDay (cs : List Char) : Bool := (afterTime? cs).any isOffset

/-- A date, a time of day, or both. Only a full moment has an offset. -/
def isTime (cs : List Char) : Bool :=
  isDate cs || afterTime? cs = some [] ||
    (isDate (cs.take 10) &&
      match cs.drop 10 with
      | 'T' :: rest | 't' :: rest => isTimeOfDay rest
      | _ => false)

/-- The characters of bare values; all others end one. -/
def isBareChar (c : Char) : Bool :=
  c.isAlphanum || c = '+' || c = '-' || c = '_' || c = '.' || c = ':'

def bareValue? (cs : List Char) : Option Value :=
  if cs = ['t', 'r', 'u', 'e'] then some (.boolean true)
  else if cs = ['f', 'a', 'l', 's', 'e'] then some (.boolean false)
  else if isInteger cs then some .integer
  else if isFloat cs then some .float
  else if isTime cs then some .time
  else none

/-- A bare value at the front. A date may be joined to a time of day by one space. -/
def readBare (cs : List Char) : Option (Value × List Char) :=
  let word := cs.takeWhile isBareChar
  match isDate word, cs.dropWhile isBareChar with
  | true, ' ' :: c :: rest =>
    if c.isDigit then
      if isTimeOfDay ((c :: rest).takeWhile isBareChar) then
        some (.time, (c :: rest).dropWhile isBareChar)
      else none
    else some (.time, ' ' :: c :: rest)
  | _, rest => (bareValue? word).map (·, rest)

end MachineVault.Toml
