import MachineVault.Text.Hex

/-! TOML strings: basic ones with escapes and literal ones without, each on one line between single
quotation marks or over several lines between triple ones. Lines end in a bare newline here. -/

namespace MachineVault.Toml

/-- Characters that may stand for themselves: of the control codes only tab. -/
def isPlain (c : Char) : Bool := c = '\t' || (0x20 ≤ c.toNat && c.toNat ≠ 0x7F)

/-- Space or tab. -/
def isBlank (c : Char) : Bool := c = ' ' || c = '\t'

/-- The end of a string: quotes that still belong to it and what follows. A run of up to five
quotes closes a string of several lines, its last three being the delimiter. -/
def closing? (multiline : Bool) (quote : Char) (cs : List Char) :
    Option (List Char × List Char) :=
  if multiline then
    let run := min 5 (cs.takeWhile (· = quote)).length
    if run < 3 then none else some (List.replicate (run - 3) quote, cs.drop run)
  else
    match cs with
    | c :: rest => if c = quote then some ([], rest) else none
    | [] => none

/-- The rest of a literal string, behind what is `done` in reverse. -/
def readLiteral (multiline : Bool) (done cs : List Char) : Option (String × List Char) :=
  match closing? multiline '\'' cs, cs with
  | some (quotes, rest), _ => some (String.ofList (done.reverse ++ quotes), rest)
  | none, [] => none
  | none, c :: cs =>
    if isPlain c || (multiline && c = '\n') then readLiteral multiline (c :: done) cs else none

/-- Where in a basic string the reader stands. -/
inductive Mode
  | text
  /-- Behind a backslash. -/
  | escape
  /-- In a number of `left` more hexadecimal digits. -/
  | number (left value : Nat)
  /-- Behind a backslash and blanks: the line has to end. -/
  | lineEnd
  /-- Behind an escaped line end: blanks and line ends are dropped. -/
  | margin
deriving DecidableEq

def escaped? : Char → Option Char
  | 'b' => some '\x08'
  | 't' => some '\t'
  | 'n' => some '\n'
  | 'f' => some '\x0c'
  | 'r' => some '\r'
  | '"' => some '"'
  | '\\' => some '\\'
  | _ => none

/-- The character with this number. -/
def scalar? (n : Nat) : Option Char := if n.isValidChar then some (Char.ofNat n) else none

/-- The rest of a basic string, behind what is `done` in reverse. -/
def readBasic (multiline : Bool) : Mode → (done cs : List Char) → Option (String × List Char)
  | _, _, [] => none
  | .escape, done, c :: cs =>
    match escaped? c with
    | some e => readBasic multiline .text (e :: done) cs
    | none =>
      if c = 'u' then readBasic multiline (.number 4 0) done cs
      else if c = 'U' then readBasic multiline (.number 8 0) done cs
      else if multiline && isBlank c then readBasic multiline .lineEnd done cs
      else if multiline && c = '\n' then readBasic multiline .margin done cs
      else none
  | .number left value, done, c :: cs =>
    match Text.hexValue? c with
    | none => none
    | some digit =>
      let value := value * 16 + digit
      if left ≤ 1 then
        match scalar? value with
        | some e => readBasic multiline .text (e :: done) cs
        | none => none
      else readBasic multiline (.number (left - 1) value) done cs
  | .lineEnd, done, c :: cs =>
    if c = '\n' then readBasic multiline .margin done cs
    else if isBlank c then readBasic multiline .lineEnd done cs
    else none
  | mode, done, c :: cs =>
    if mode = .margin && (isBlank c || c = '\n') then readBasic multiline .margin done cs
    else
      match closing? multiline '"' (c :: cs) with
      | some (quotes, rest) => some (String.ofList (done.reverse ++ quotes), rest)
      | none =>
        if c = '\\' then readBasic multiline .escape done cs
        else if isPlain c || (multiline && c = '\n') then
          readBasic multiline .text (c :: done) cs
        else none

/-- A line end right behind the opening delimiter does not belong to the string. -/
def dropLineEnd : List Char → List Char
  | '\n' :: cs => cs
  | cs => cs

/-- A string in any of its forms. -/
def readString : List Char → Option (String × List Char)
  | '"' :: '"' :: '"' :: cs => readBasic true .text [] (dropLineEnd cs)
  | '"' :: cs => readBasic false .text [] cs
  | '\'' :: '\'' :: '\'' :: cs => readLiteral true [] (dropLineEnd cs)
  | '\'' :: cs => readLiteral false [] cs
  | _ => none

/-- The forms that a key may have: a string on one line. -/
def readLineString : List Char → Option (String × List Char)
  | '"' :: cs => readBasic false .text [] cs
  | '\'' :: cs => readLiteral false [] cs
  | _ => none

inductive StringForm
  | basic (multiline : Bool)
  | literal (multiline : Bool)
deriving DecidableEq

def hasTriple (quote : Char) : List Char → Bool
  | a :: b :: c :: cs => (a = quote && b = quote && c = quote) || hasTriple quote (b :: c :: cs)
  | _ => false

/-- The first form that needs no escapes; where there is none, a basic string. -/
def StringForm.for (cs : List Char) : StringForm :=
  let clean := cs.all fun c => isPlain c || c = '\n'
  let oneLine := !cs.contains '\n'
  if clean && oneLine && !cs.contains '\\' && !cs.contains '"' then .basic false
  else if clean && oneLine && !cs.contains '\'' then .literal false
  else if clean && !cs.contains '\\' && !hasTriple '"' cs then .basic true
  else if clean && !hasTriple '\'' cs then .literal true
  else .basic (!oneLine)

def escapeChar (multiline : Bool) (c : Char) : List Char :=
  match c with
  | '\x08' => ['\\', 'b']
  | '\t' => ['\\', 't']
  | '\x0c' => ['\\', 'f']
  | '\r' => ['\\', 'r']
  | '\\' => ['\\', '\\']
  | '\n' => if multiline then ['\n'] else ['\\', 'n']
  | c =>
    if isPlain c then [c]
    else ['\\', 'u', '0', '0', (Text.hexDigit (c.toNat / 16)).toUpper,
      (Text.hexDigit c.toNat).toUpper]

/-- The longest run of quotes that is written out, plus one. -/
def quoteLimit (multiline : Bool) : Nat := if multiline then 3 else 1

/-- Escapes every `quoteLimit`-th quote of a run; `run` of them stand in front. -/
def escapeText (multiline : Bool) : (run : Nat) → List Char → List Char
  | _, [] => []
  | run, c :: cs =>
    if c = '"' then
      if run + 1 = quoteLimit multiline then '\\' :: '"' :: escapeText multiline 0 cs
      else '"' :: escapeText multiline (run + 1) cs
    else escapeChar multiline c ++ escapeText multiline 0 cs

def delimiter (multiline : Bool) (quote : Char) : List Char :=
  List.replicate (if multiline then 3 else 1) quote

/-- A string of several lines starts on a line of its own. -/
def writeString (s : String) : List Char :=
  let cs := s.toList
  let lead := if cs.contains '\n' then ['\n'] else []
  match StringForm.for cs with
  | .basic true => delimiter true '"' ++ lead ++ escapeText true 0 cs ++ delimiter true '"'
  | .basic false => delimiter false '"' ++ escapeText false 0 cs ++ delimiter false '"'
  | .literal true => delimiter true '\'' ++ lead ++ cs ++ delimiter true '\''
  | .literal false => delimiter false '\'' ++ cs ++ delimiter false '\''

end MachineVault.Toml
