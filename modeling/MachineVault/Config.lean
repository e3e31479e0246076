import MachineVault.Error
import MachineVault.Text.Utf8
import MachineVault.Toml.Table

/-! The settings of a storage and their file. Every setting has a default, and what is unknown in a
file is ignored. -/

namespace MachineVault

structure Config where
  /-- The partition tag of the index. -/
  indexTag : String := "machine_index_tag"
  /-- The partition tag of the records. -/
  dataTag : String := "machine_data_tag"
  /-- Compare loaded machines with the identifier cache. -/
  verifyOnLoad : Bool := true
  /-- Keep records without a factory and write them back. -/
  preserveUnknown : Bool := true
  /-- Log the counts of each flushed chunk. -/
  logFlushCounts : Bool := false
deriving DecidableEq

namespace Config

/-- Two tags that differ and are not empty. -/
def validate (c : Config) : Except ConfigError Unit := do
  if c.indexTag.isEmpty || c.dataTag.isEmpty then throw .emptyTag
  if c.indexTag = c.dataTag then throw (.equalTags c.indexTag)

def textOr (default : String) : Option Toml.Node → Option String
  | none => some default
  | some (.value (.string s)) => some s
  | some _ => none

def flagOr (default : Bool) : Option Toml.Node → Option Bool
  | none => some default
  | some (.value (.boolean b)) => some b
  | some _ => none

/-- The settings in a table, if each is of its type. -/
def ofEntries? (entries : Toml.Entries) : Option Config := do
  return {
    indexTag := ← textOr "machine_index_tag" (entries.lookup "index_tag")
    dataTag := ← textOr "machine_data_tag" (entries.lookup "data_tag")
    verifyOnLoad := ← flagOr true (entries.lookup "verify_consistency_on_load")
    preserveUnknown := ← flagOr true (entries.lookup "preserve_unknown_records")
    logFlushCounts := ← flagOr false (entries.lookup "log_flush_counts") }

def ofToml (text : String) : Except ConfigError Config :=
  match (Toml.parse? text).bind ofEntries? with
  | none => .error .unparsable
  | some c => do
    c.validate
    return c

/-- The settings in a file, which has to be there and to be text. -/
def ofFile (contents : Option Bytes) : Except ConfigError Config :=
  match contents.bind Text.decode? with
  | none => .error .unreadable
  | some text => ofToml text

def tomlLine (name : String) (value : List Char) : List Char :=
  name.toList ++ ' ' :: '=' :: ' ' :: value ++ ['\n']

def flagText (b : Bool) : String := if b then "true" else "false"

/-- One line for each setting. -/
def toToml (c : Config) : String :=
  String.ofList (tomlLine "index_tag" (Toml.writeString c.indexTag) ++
    tomlLine "data_tag" (Toml.writeString c.dataTag) ++
    tomlLine "verify_consistency_on_load" (flagText c.verifyOnLoad).toList ++
    tomlLine "preserve_unknown_records" (flagText c.preserveUnknown).toList ++
    tomlLine "log_flush_counts" (flagText c.logFlushCounts).toList)

/-- A file that sets everything to its default and says what it is for. -/
def commentedToml : String := String.join ([
    "# Machine storage configuration",
    "#",
    "# Partition tags under which each chunk's index and record data are stored.",
    "# Changing them on an existing world makes previously saved machines invisible.",
    "index_tag = \"machine_index_tag\"",
    "data_tag = \"machine_data_tag\"",
    "",
    "# Cross-check machines against the identifier cache when a chunk loads.",
    "verify_consistency_on_load = true",
    "",
    "# Keep records whose machine type is not registered and write them back",
    "# unchanged on flush (default: true).",
    "preserve_unknown_records = true",
    "",
    "# Log machine counts for every flushed chunk at info level (default: false).",
    "log_flush_counts = false"].map (· ++ "\n"))

def summary (c : Config) : String :=
  s!"StorageConfig \x7b index_tag: {Text.quote c.indexTag}, data_tag: {Text.quote c.dataTag}, " ++
    s!"verify_consistency_on_load: {flagText c.verifyOnLoad}, " ++
    s!"preserve_unknown_records: {flagText c.preserveUnknown}, " ++
    s!"log_flush_counts: {flagText c.logFlushCounts} \x7d"

end Config

end MachineVault
