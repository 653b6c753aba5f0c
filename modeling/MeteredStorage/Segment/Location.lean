
namespace MeteredStorage.Location

def offsetBits : Nat := 40

def maxOffset : Nat := 1 <<< offsetBits

def maxSegments : Nat := 1 <<< (63 - offsetBits) - 1

def encode? (index : UInt32) (offset : Nat) : Option Int64 :=
  if index.toNat < maxSegments ∧ offset < maxOffset then
    some (Int64.ofInt ((index.toNat + 1) * maxOffset + offset : Nat))
  else none

/-- The segment that `location` points into; numbers below the first location have none. -/
def segment? (location : Int64) : Option UInt32 :=
  if location.toInt < maxOffset then none
  else some (UInt32.ofNat (location.toInt.toNat / maxOffset - 1))

def offset (location : Int64) : Nat := (location.toInt % maxOffset).toNat

end MeteredStorage.Location
