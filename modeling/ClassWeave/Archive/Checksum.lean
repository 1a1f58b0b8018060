import ClassWeave.Bytes

/-!
# The CRC-32 checksum
-/

namespace ClassWeave

/-- Divides out one bit. -/
@[inline] def crcBit (crc : UInt32) : UInt32 :=
  if crc &&& 1 = 1 then (crc >>> 1) ^^^ 0xEDB88320 else crc >>> 1

/-- Divides out half a byte. -/
@[inline] def crcHalf (crc : UInt32) : UInt32 := crcBit (crcBit (crcBit (crcBit crc)))

def crcByte (crc : UInt32) (b : UInt8) : UInt32 := crcHalf (crcHalf (crc ^^^ b.toUInt32))

def crc32 (bs : Bytes) : UInt32 := bs.foldl crcByte 0xFFFFFFFF ^^^ 0xFFFFFFFF

end ClassWeave
