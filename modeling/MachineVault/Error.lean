import MachineVault.Location
import MachineVault.MachineId
import MachineVault.Text.Quoted

/-! Everything that can go wrong, by cause, and the one message of each cause. -/

namespace MachineVault

/-- Fields of the binary formats, as messages name them. -/
inductive Field
  | version | chunkX | chunkZ | hasMachines | entryCount | typeTag | worldName | relX | relY | relZ
  | recordCount | recordLength | record | payloadLength
  | sectionCount | sectionTag | sectionData
deriving DecidableEq

def Field.name : Field → String
  | version => "version"
  | chunkX => "chunk_x"
  | chunkZ => "chunk_z"
  | hasMachines => "has_machines"
  | entryCount => "entry_count"
  | typeTag => "type_tag"
  | worldName => "world_name"
  | relX => "rel_x"
  | relY => "rel_y"
  | relZ => "rel_z"
  | recordCount => "record_count"
  | recordLength => "record_len"
  | record => "record"
  | payloadLength => "payload_len"
  | sectionCount => "section_count"
  | sectionTag => "section_tag"
  | sectionData => "section_data"

/-- Damage that makes a whole buffer unreadable, or contents that have no encoding. -/
inductive FormatError
  | unsupportedVersion (expected actual : UInt8)
  | truncated (field : Field)
  | invalidUtf8 (field : Field)
  | outOfRange (field : Field) (value : Int)
  | trailingBytes (count : Nat)
  | duplicateEntry (block : Block)
  | outsideChunk (block : Block) (chunk : ChunkPos)
  | foreignIndex (chunk : ChunkPos) (partition : Partition)
deriving DecidableEq

def FormatError.message : FormatError → String
  | unsupportedVersion expected actual =>
    s!"unsupported format version: expected {expected}, got {actual}"
  | truncated field => s!"truncated buffer while reading {field.name}"
  | invalidUtf8 field => s!"invalid UTF-8 in {field.name}"
  | outOfRange field value => s!"{field.name} out of range: {value}"
  | trailingBytes count => s!"{count} trailing bytes after end of buffer"
  | duplicateEntry block => s!"malformed buffer: duplicate index entry at {block}"
  | outsideChunk block chunk => s!"malformed buffer: {block} is outside chunk {chunk}"
  | foreignIndex chunk partition =>
    s!"malformed buffer: index for chunk {chunk} stored in partition {partition}"

/-- Why a file is not an intact frame. -/
inductive FrameError
  | tooShort (expected actual : Nat)
  | invalidMagic
  | unsupportedVersion (version : UInt8)
  | lengthMismatch (declared available : Nat)
  | checksumMismatch (stored computed : UInt32)
deriving DecidableEq

/-- Eight hexadecimal digits behind `0x`. -/
def checksumText (sum : UInt32) : String := s!"0x{Text.hexBytes (bigEndian 4 sum.toNat)}"

def FrameError.message : FrameError → String
  | tooShort expected actual =>
    s!"frame too short: expected at least {expected} bytes, got {actual}"
  | invalidMagic => "invalid frame magic bytes"
  | unsupportedVersion version => s!"unsupported frame version: {version}"
  | lengthMismatch declared available =>
    s!"frame length mismatch: declared {declared}, available {available}"
  | checksumMismatch stored computed =>
    s!"frame checksum mismatch: stored {checksumText stored}, computed {checksumText computed}"

inductive RecordError
  | undecodable
  | refused (reason : String)
deriving DecidableEq

def RecordError.message : RecordError → String
  | undecodable => "failed to decode machine record"
  | refused reason => reason

/-- Arguments that are turned down before anything is touched. -/
inductive PreconditionError
  | emptyWorld
  | emptyTypeTag (id : MachineId)
  | heightOutOfRange (y : Int32)
  | outsidePartition (block : Block) (partition : Partition)
  | unusableWorldName (world : String)
  | unregistrableTag
  | alreadyRegistered (tag : String)
  | refused (reason : String)
deriving DecidableEq

def PreconditionError.message : PreconditionError → String
  | emptyWorld => "world name must not be empty"
  | emptyTypeTag id => s!"machine {id} has an empty type tag"
  | heightOutOfRange y => s!"y = {y} is outside 0..=255"
  | outsidePartition block partition => s!"{block} does not belong to partition {partition}"
  | unusableWorldName world =>
    s!"world name {Text.quote world} cannot be used as a directory name"
  | unregistrableTag => "machine type tag must not be empty"
  | alreadyRegistered tag => s!"machine type {Text.quote tag} is already registered"
  | refused reason => reason

inductive FileError
  | notFound
  | notADirectory
  | isADirectory
  | nameTooLong
  | nulCharacter
deriving DecidableEq

def FileError.message : FileError → String
  | notFound => "no such file or directory"
  | notADirectory => "not a directory"
  | isADirectory => "is a directory"
  | nameTooLong => "file name too long"
  | nulCharacter => "file name with a NUL character"

/-- The calls of a store that an outage can refuse. -/
inductive StoreCall
  | get | commit | saveTable | loadTable
deriving DecidableEq

def StoreCall.name : StoreCall → String
  | get => "get"
  | commit => "commit"
  | saveTable => "cache save"
  | loadTable => "cache load"

inductive PersistenceError
  | frame (cause : FrameError)
  | undecodableTable
  | outage (call : StoreCall)
deriving DecidableEq

def PersistenceError.message : PersistenceError → String
  | frame cause => cause.message
  | undecodableTable => "failed to decode cache table"
  | outage call => s!"injected {call.name} failure"

inductive ConfigError
  | emptyTag
  | equalTags (tag : String)
  | unparsable
  | unreadable
deriving DecidableEq

def ConfigError.message : ConfigError → String
  | emptyTag => "partition tags must not be empty"
  | equalTags tag => s!"index_tag and data_tag must differ (both are {Text.quote tag})"
  | unparsable => "Failed to parse config"
  | unreadable => "Failed to read config file"

inductive Error
  | format (cause : FormatError)
  | unknownType (tag : String)
  | record (cause : RecordError)
  | precondition (cause : PreconditionError)
  | file (cause : FileError)
  | persistence (cause : PersistenceError)
  | config (cause : ConfigError)
deriving DecidableEq

namespace Error

def message : Error → String
  | format cause => s!"Format error: {cause.message}"
  | unknownType tag => s!"Unknown machine type: {tag}"
  | record cause => s!"Record error: {cause.message}"
  | precondition cause => s!"Precondition violated: {cause.message}"
  | file cause => s!"I/O error: {cause.message}"
  | persistence cause => s!"Persistence error: {cause.message}"
  | config cause => s!"Config error: {cause.message}"

/-- The error concerns one record only, and its neighbours still load. -/
def isRecordLocal : Error → Bool
  | unknownType _ | record _ => true
  | _ => false

end Error

end MachineVault
