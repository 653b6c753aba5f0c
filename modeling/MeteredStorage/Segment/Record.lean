import MeteredStorage.Bytes.BigEndian

namespace MeteredStorage

structure Record where
  key : Int64
  data : Bytes
  deriving DecidableEq

structure PlacedRecord where
  record : Record
  offset : Nat
  deriving DecidableEq

namespace Record

open BigEndian

def headerSize : Nat := 12

def encode (r : Record) : Bytes := ofInt64 r.key ++ ofWord32 (UInt32.ofNat r.data.length) ++ r.data

def size (r : Record) : Nat := headerSize + r.data.length

theorem length_encode (r : Record) : r.encode.length = r.size := by
  simp [encode, size, headerSize]
  omega

def ofHeader (header : Bytes) : Int64 × Nat :=
  (toInt64 (header.take 8), (toWord32 (header.drop 8)).toNat)

def read? (bs : Bytes) : Option (Record × Bytes) := do
  let (header, rest) ← Bytes.split? headerSize bs
  let (key, length) := ofHeader header
  let (data, rest) ← Bytes.split? length rest
  return (⟨key, data⟩, rest)

/--
Reads `n` records, the first at `offset`. Beside the records it returns the offset of the first one
that the bytes do not hold in full.
-/
def scan : (n offset : Nat) → Bytes → List PlacedRecord × Option Nat
  | 0, _, _ => ([], none)
  | n + 1, offset, bs =>
    match read? bs with
    | none => ([], some offset)
    | some (r, rest) =>
      let (rs, torn) := scan n (offset + r.size) rest
      (⟨r, offset⟩ :: rs, torn)

end Record

end MeteredStorage
