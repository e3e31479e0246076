import MachineVault.Wire

/-! The data blob of a chunk: a version, a count and the records, each behind its length, so that a
record that cannot be read never hides its neighbours. -/

namespace MachineVault.RecordList

def formatVersion : UInt8 := 0

def encode (records : List Bytes) : Except FormatError Bytes := do
  let count ← lengthWord records.length .recordCount
  let parts ← records.mapM fun record => countedBytes record .recordLength
  return formatVersion :: count ++ parts.flatten

def read : Reader (List Bytes) := do
  let version ← Reader.byte .version
  unless version = formatVersion do throw (.unsupportedVersion formatVersion version)
  let count ← Reader.word .recordCount
  Reader.replicate (Reader.counted .recordLength .record) count

def decode (bytes : Bytes) : Except FormatError (List Bytes) := read.run bytes

end MachineVault.RecordList
