import MachineVault.Toml.Expression

/-! The tables that a TOML document defines. A table is defined once: by its header, by the headers
of its subtables, which leave its own header free, or by dotted keys. -/

namespace MachineVault.Toml

/-- How a table came to be. -/
inductive Origin
  | header
  /-- On the way to the header of another table. -/
  | way
  | dottedKey
deriving DecidableEq

inductive Node
  | value (v : Value)
  | table (origin : Origin) (entries : List (String × Node))
  /-- An array of tables. Only the last one can still be extended, and it is the one kept. -/
  | tables (last : List (String × Node))

abbrev Entries := List (String × Node)

namespace Entries

def set (entries : Entries) (name : String) (node : Node) : Entries :=
  (name, node) :: entries.filter (·.1 ≠ name)

/-- Changes the table at the end of a path, making the tables that are missing on the way. A dotted
key does not lead into a table that has a header. -/
def modify (dotted : Bool) :
    List String → (change : Origin → Entries → Option Entries) → Origin → Entries → Option Entries
  | [], change, origin, entries => change origin entries
  | name :: path, change, _, entries =>
    match entries.lookup name with
    | none => do
      let origin := if dotted then .dottedKey else .way
      let inner ← modify dotted path change origin []
      return entries.set name (.table origin inner)
    | some (.value _) => none
    | some (.table origin inner) => do
      if dotted && origin = .header then none
      else
        let inner ← modify dotted path change origin inner
        return entries.set name (.table origin inner)
    | some (.tables last) => do
      let last ← modify dotted path change .header last
      return entries.set name (.tables last)

/-- A value under a name that is free. A dotted key ends in a table made by dotted keys, any other
key in a table of another origin. -/
def addValue (key : Key) (v : Value) (origin : Origin) (entries : Entries) : Option Entries :=
  if origin = .dottedKey ↔ key.path = [] then none
  else
    match entries.lookup key.name with
    | none => some (entries.set key.name (.value v))
    | some _ => none

/-- The table of a header, unless it is defined already. -/
def addTable (name : String) (_ : Origin) (entries : Entries) : Option Entries :=
  match entries.lookup name with
  | none => some (entries.set name (.table .header []))
  | some (.table .way inner) => some (entries.set name (.table .header inner))
  | some _ => none

/-- One more table in an array of tables. -/
def addArrayTable (name : String) (_ : Origin) (entries : Entries) : Option Entries :=
  match entries.lookup name with
  | none | some (.tables _) => some (entries.set name (.tables []))
  | some _ => none

end Entries

/-- A document so far, and the path of the header that pairs now belong to. -/
structure Reading where
  root : Entries := []
  header : List String := []

def Reading.add (r : Reading) : Expression → Option Reading
  | .pair key v => do
    let inTable := Entries.modify true key.path (Entries.addValue key v)
    return { r with root := ← Entries.modify false r.header inTable .header r.root }
  | .table key => do
    let root ← Entries.modify false key.path (Entries.addTable key.name) .header r.root
    return { root, header := key.parts }
  | .arrayTable key => do
    let root ← Entries.modify false key.path (Entries.addArrayTable key.name) .header r.root
    return { root, header := key.parts }

/-- The root table of a document, if the document is valid throughout. -/
def parse? (text : String) : Option Entries := do
  let reading ← (← expressions? text).foldlM Reading.add {}
  return reading.root

end MachineVault.Toml
