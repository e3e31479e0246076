import Std.Data.ExtTreeMap.Lemmas
import MachineVault.Wire

/-! The byte strings of a partition by tag, and the stored form of them all: a count and, for each
section, its counted tag and its counted bytes. Reading accepts the sections in any order. -/

namespace MachineVault

abbrev Sections := Std.ExtTreeMap String Bytes

namespace Sections

/-- Later entries replace earlier ones of the same tag. -/
def insertAll (sections : Sections) (entries : List (String × Bytes)) : Sections :=
  entries.foldl (fun s (tag, bytes) => s.insert tag bytes) sections

def encodeSection (entry : String × Bytes) : Except FormatError Bytes := do
  let tag ← countedBytes (Text.encode entry.1) .sectionTag
  let data ← countedBytes entry.2 .sectionData
  return tag ++ data

/-- Sections in ascending order of tags. -/
def encode (sections : Sections) : Except FormatError Bytes := do
  let count ← lengthWord sections.size .sectionCount
  let parts ← sections.toList.mapM encodeSection
  return count ++ parts.flatten

def readSection : Reader (String × Bytes) := do
  let tag ← Reader.text .sectionTag
  let data ← Reader.counted .sectionData .sectionData
  return (tag, data)

def read : Reader Sections := do
  let count ← Reader.word .sectionCount
  return insertAll ∅ (← Reader.replicate readSection count)

def decode (bytes : Bytes) : Except FormatError Sections := read.run bytes

end Sections

end MachineVault
