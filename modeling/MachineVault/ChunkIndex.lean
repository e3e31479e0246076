import MachineVault.Wire

/-! The index of a chunk: the type tag of the machine on each block. The stored form is a header of
ten bytes and, unless the index is empty, a counted list of entries:

version, chunk x, chunk z, has-machines flag, then the entry count and per entry the counted tag,
the counted world name and the offsets x, y and z in one byte each. -/

namespace MachineVault

structure ChunkIndex where
  chunk : ChunkPos
  entries : Std.ExtTreeMap Block String := ∅
deriving DecidableEq

namespace ChunkIndex

def formatVersion : UInt8 := 0

/-- The greatest height that the format can hold. -/
def maxHeight : Int32 := 255

def insert (index : ChunkIndex) (block : Block) (tag : String) : ChunkIndex :=
  { index with entries := index.entries.insert block tag }

def erase (index : ChunkIndex) (block : Block) : ChunkIndex :=
  { index with entries := index.entries.erase block }

def get? (index : ChunkIndex) (block : Block) : Option String := index.entries[block]?

def size (index : ChunkIndex) : Nat := index.entries.size

/-- A block of the chunk at a height from 0 to 255. -/
def checkEncodable (chunk : ChunkPos) (block : Block) : Except FormatError Unit := do
  unless block.chunk = chunk do throw (.outsideChunk block chunk)
  unless 0 ≤ block.y ∧ block.y ≤ maxHeight do throw (.outOfRange .relY block.y.toInt)

def encodeEntry (entry : Block × String) : Except FormatError Bytes := do
  let (block, tag) := entry
  let tagBytes ← countedBytes (Text.encode tag) .typeTag
  let worldBytes ← countedBytes (Text.encode block.world) .worldName
  return tagBytes ++ worldBytes ++
    [offsetOf block.x, UInt8.ofNat block.y.toInt.toNat, offsetOf block.z]

def header (chunk : ChunkPos) : Bytes :=
  formatVersion :: signedWordBytes chunk.x ++ signedWordBytes chunk.z

/-- Refuses an index with a block that has no stored form. -/
def encode (index : ChunkIndex) : Except FormatError Bytes := do
  index.entries.keys.forM (checkEncodable index.chunk)
  if index.entries.isEmpty then return header index.chunk ++ [0]
  let count ← lengthWord index.size .entryCount
  let entries ← index.entries.toList.mapM encodeEntry
  return header index.chunk ++ 1 :: count ++ entries.flatten

def readOffset (field : Field) : Reader UInt8 := do
  let offset ← Reader.byte field
  unless offset.toNat < 16 do throw (.outOfRange field offset.toNat)
  return offset

/-- The absolute coordinate, unless the chunk lies outside the world. -/
def readCoordinate (chunk : Int32) (offset : UInt8) (field : Field) : Reader Int32 :=
  match blockAt? chunk offset with
  | some v => return v
  | none => throw (.outOfRange field chunk.toInt)

def readEntry (chunk : ChunkPos) : Reader (Block × String) := do
  let tag ← Reader.text .typeTag
  let world ← Reader.text .worldName
  let offsetX ← readOffset .relX
  let y ← Reader.byte .relY
  let offsetZ ← readOffset .relZ
  let x ← readCoordinate chunk.x offsetX .chunkX
  let z ← readCoordinate chunk.z offsetZ .chunkZ
  return (⟨world, x, Int32.ofNat y.toNat, z⟩, tag)

/-- Adds `n` entries. No block may be listed twice. -/
def readEntries : Nat → ChunkIndex → Reader ChunkIndex
  | 0, index => return index
  | n + 1, index => do
    let (block, tag) ← readEntry index.chunk
    if index.entries.contains block then throw (.duplicateEntry block)
    readEntries n (index.insert block tag)

def read : Reader ChunkIndex := do
  let version ← Reader.byte .version
  unless version = formatVersion do throw (.unsupportedVersion formatVersion version)
  let x ← Reader.signedWord .chunkX
  let z ← Reader.signedWord .chunkZ
  let flag ← Reader.byte .hasMachines
  if flag = 0 then return ⟨⟨x, z⟩, ∅⟩
  unless flag = 1 do throw (.outOfRange .hasMachines flag.toNat)
  let count ← Reader.word .entryCount
  readEntries count ⟨⟨x, z⟩, ∅⟩

/-- All or nothing: a damaged index yields no entries. -/
def decode (bytes : Bytes) : Except FormatError ChunkIndex := read.run bytes

end ChunkIndex

end MachineVault
