import MachineVault.Toml.Scalar
import MachineVault.Toml.StringForm

/-! The grammar of TOML documents: a document is a list of expressions, which are key-value pairs
and table headers, each on a line of its own among blank lines and comments. -/

namespace MachineVault.Toml

abbrev Parser (α : Type) := List Char → Option (α × List Char)

/-- Keys with more parts, and values in more containers, are refused. -/
def nestingLimit : Nat := 79

/-- A dotted key: the parts on the way and the last one. -/
structure Key where
  path : List String
  name : String
deriving DecidableEq

def Key.parts (key : Key) : List String := key.path ++ [key.name]

inductive Expression
  | pair (key : Key) (value : Value)
  | table (key : Key)
  | arrayTable (key : Key)
deriving DecidableEq

def skipBlanks (cs : List Char) : List Char := cs.dropWhile isBlank

/-- The line end that follows a comment, if the comment holds plain characters only. -/
def skipComment : List Char → List Char
  | '#' :: cs => cs.dropWhile isPlain
  | cs => cs

/-- Blanks, a comment and the end of the line or of the document. -/
def lineEnd? (cs : List Char) : Option (List Char) :=
  match skipComment (skipBlanks cs) with
  | [] => some []
  | '\n' :: cs => some cs
  | _ => none

/-- Drops blanks, comments and up to `lines` line ends. -/
def skipLinesUpTo : (lines : Nat) → List Char → List Char
  | 0, cs => cs
  | lines + 1, cs =>
    match skipComment (skipBlanks cs) with
    | '\n' :: cs => skipLinesUpTo lines cs
    | cs => cs

def skipLines (cs : List Char) : List Char := skipLinesUpTo (cs.length + 1) cs

def isKeyChar (c : Char) : Bool := c.isAlphanum || c = '-' || c = '_'

def readKeyPart : Parser String
  | '"' :: cs => readLineString ('"' :: cs)
  | '\'' :: cs => readLineString ('\'' :: cs)
  | cs =>
    match cs.takeWhile isKeyChar with
    | [] => none
    | part => some (String.ofList part, cs.dropWhile isKeyChar)

/-- Up to `n` parts with points between them and blanks around them. -/
def readKeyParts : (n : Nat) → Parser (List String)
  | 0, _ => none
  | n + 1, cs => do
    let (part, cs) ← readKeyPart (skipBlanks cs)
    match skipBlanks cs with
    | '.' :: cs =>
      let (parts, cs) ← readKeyParts n cs
      return (part :: parts, cs)
    | cs => return ([part], cs)

def readKey : Parser Key := fun cs => do
  let (parts, cs) ← readKeyParts nestingLimit cs
  return (⟨parts.dropLast, parts.getLastD ""⟩, cs)

/-- The items of an array behind its bracket. A comma may follow the last one. -/
def readItems (value : Parser Value) : (n : Nat) → List Char → Option (List Char)
  | 0, _ => none
  | n + 1, cs =>
    match skipLines cs with
    | ']' :: cs => some cs
    | cs => do
      let (_, cs) ← value cs
      match skipLines cs with
      | ',' :: cs => readItems value n cs
      | ']' :: cs => return cs
      | _ => none

def readPair (value : Parser Value) : Parser (Key × Value) := fun cs => do
  let (key, cs) ← readKey cs
  match cs with
  | '=' :: cs =>
    let (v, cs) ← value (skipBlanks cs)
    return ((key, v), cs)
  | _ => none

/-- The pairs of an inline table. None of them is optional after a comma. -/
def readPairs (value : Parser Value) : (n : Nat) → Parser (List Key)
  | 0, _ => none
  | n + 1, cs => do
    let ((key, _), cs) ← readPair value cs
    match skipBlanks cs with
    | ',' :: cs =>
      let (keys, cs) ← readPairs value n cs
      return (key :: keys, cs)
    | '}' :: cs => return ([key], cs)
    | _ => none

/-- No key is given twice, and none leads through another. -/
def areCompatible (keys : List Key) : Bool :=
  keys.Pairwise fun a b => ¬ a.parts <+: b.parts ∧ ¬ b.parts <+: a.parts

/-- A value within so many containers. -/
def readValue : (containers : Nat) → Parser Value
  | containers, cs =>
    match cs, containers with
    | '"' :: cs, _ => (readString ('"' :: cs)).map (Prod.map Value.string id)
    | '\'' :: cs, _ => (readString ('\'' :: cs)).map (Prod.map Value.string id)
    | '[' :: cs, containers + 1 =>
      (readItems (readValue containers) (cs.length + 1) cs).map (Value.array, ·)
    | '{' :: cs, containers + 1 =>
      match skipBlanks cs with
      | '}' :: cs => some (Value.inlineTable, cs)
      | cs => do
        let (keys, cs) ← readPairs (readValue containers) (cs.length + 1) cs
        if areCompatible keys then some (Value.inlineTable, cs) else none
    | cs, _ => readBare cs

def readExpression : Parser Expression
  | '[' :: '[' :: cs => do
    let (key, cs) ← readKey cs
    match cs with
    | ']' :: ']' :: cs => return (.arrayTable key, ← lineEnd? cs)
    | _ => none
  | '[' :: cs => do
    let (key, cs) ← readKey cs
    match cs with
    | ']' :: cs => return (.table key, ← lineEnd? cs)
    | _ => none
  | cs => do
    let ((key, value), cs) ← readPair (readValue nestingLimit) cs
    return (.pair key value, ← lineEnd? cs)

/-- Up to `n - 1` expressions and the end of the document. -/
def readExpressions : (n : Nat) → List Char → Option (List Expression)
  | 0, _ => none
  | n + 1, cs =>
    match skipLines cs with
    | [] => some []
    | cs => do
      let (e, cs) ← readExpression cs
      return e :: (← readExpressions n cs)

/-- Turns each carriage return in front of a newline into nothing. -/
def joinLineEnds : List Char → List Char
  | '\r' :: '\n' :: cs => '\n' :: joinLineEnds cs
  | c :: cs => c :: joinLineEnds cs
  | [] => []

/-- A byte order mark may stand in front. -/
def dropByteOrderMark : List Char → List Char
  | '\uFEFF' :: cs => cs
  | cs => cs

/-- The expressions of a document. -/
def expressions? (text : String) : Option (List Expression) :=
  let cs := joinLineEnds (dropByteOrderMark text.toList)
  readExpressions (cs.length + 1) cs

end MachineVault.Toml
