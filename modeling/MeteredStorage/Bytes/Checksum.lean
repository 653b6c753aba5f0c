import MeteredStorage.Bytes.Basic

namespace MeteredStorage.Checksum

def shift (r : UInt32) : UInt32 :=
  if r &&& 1 = 1 then (r >>> 1) ^^^ 0xEDB88320 else r >>> 1

def addByte (r : UInt32) (b : UInt8) : UInt32 :=
  Nat.repeat shift 8 (r ^^^ b.toUInt32)

def crc32 (bs : Bytes) : UInt32 := ~~~ (bs.foldl addByte 0xFFFFFFFF)

/-- The check value of the standard: the digits 1 to 9 in ASCII. -/
example : crc32 [49, 50, 51, 52, 53, 54, 55, 56, 57] = 0xCBF43926 := by decide +kernel

end MeteredStorage.Checksum
