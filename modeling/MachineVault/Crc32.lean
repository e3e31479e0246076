import MachineVault.Bytes

/-! The CRC-32 checksum of IEEE 802.3: least significant bit first, all ones at the start and
inverted at the end. -/

namespace MachineVault.Crc32

/-- The generator polynomial, least significant bit first. -/
def generator : UInt32 := 0xEDB88320

/-- Shifts one bit out. -/
def shiftBit (register : UInt32) : UInt32 :=
  if register &&& 1 = 1 then register >>> 1 ^^^ generator else register >>> 1

def shiftBits : Nat → UInt32 → UInt32
  | 0, register => register
  | n + 1, register => shiftBits n (shiftBit register)

def update (register : UInt32) (b : UInt8) : UInt32 := shiftBits 8 (register ^^^ b.toUInt32)

def checksum (bytes : Bytes) : UInt32 := bytes.foldl update 0xFFFFFFFF ^^^ 0xFFFFFFFF

/-- The check value of the standard: the checksum of the nine digits. -/
example : checksum [0x31, 0x32, 0x33, 0x34, 0x35, 0x36, 0x37, 0x38, 0x39] = 0xCBF43926 := by
  decide +kernel

end MachineVault.Crc32
