import MachineVault.Crc32
import MachineVault.Wire

/-! Checksummed frames around a payload: magic bytes, a version, the payload's length, the payload,
and the checksum of everything before it. -/

namespace MachineVault

/-- Four bytes that tell what kind of file a frame belongs to. -/
structure Magic where
  bytes : Bytes
  length_bytes : bytes.length = 4

namespace Frame

def version : UInt8 := 1

/-- Bytes around the payload. -/
def overhead : Nat := 13

def wrap (magic : Magic) (payload : Bytes) : Except FormatError Bytes := do
  let length ← lengthWord payload.length .payloadLength
  let body := magic.bytes ++ version :: length ++ payload
  return body ++ bigEndian 4 (Crc32.checksum body).toNat

/-- The payload of an intact frame. -/
def unwrap (magic : Magic) (data : Bytes) : Except FrameError Bytes := do
  if data.length < overhead then throw (.tooShort overhead data.length)
  unless data.take 4 = magic.bytes do throw .invalidMagic
  let actual := data.getD 4 0
  unless actual = version do throw (.unsupportedVersion actual)
  let declared := fromBigEndian ((data.drop 5).take 4)
  let available := data.length - overhead
  unless declared = available do throw (.lengthMismatch declared available)
  let body := data.take (data.length - 4)
  let stored := UInt32.ofNat (fromBigEndian (data.drop (data.length - 4)))
  let computed := Crc32.checksum body
  unless stored = computed do throw (.checksumMismatch stored computed)
  return body.drop 9

end Frame

end MachineVault
