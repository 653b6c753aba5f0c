import MeteredStorage.Bytes.BigEndian
import MeteredStorage.Bytes.Checksum

namespace MeteredStorage

def pageSize : Nat := 4096

def alignToPage (n : Nat) : Nat := (n + (pageSize - 1)) / pageSize * pageSize

structure Footer where
  index : UInt32
  /-- How recent the data is; higher is newer. -/
  generation : UInt64
  /-- The oldest generation in the segment. -/
  mergedFrom : UInt64
  createdMillis : UInt64
  minKey : Int64
  maxKey : Int64
  items : UInt64
  /-- The bytes of records at the start of the segment. -/
  dataSize : UInt64
  merged : Bool
  deriving DecidableEq

namespace Footer

open BigEndian

def magic : UInt32 := 0x44415446

def fieldsSize : Nat := 65

def fields (f : Footer) : Bytes :=
  ofWord32 magic ++ ofWord32 f.index ++ ofWord64 f.generation ++ ofWord64 f.mergedFrom ++
    ofWord64 f.createdMillis ++ ofInt64 f.minKey ++ ofInt64 f.maxKey ++ ofWord64 f.items ++
    ofWord64 f.dataSize ++ [if f.merged then 1 else 0]

def encode (f : Footer) : Bytes :=
  Bytes.resize pageSize (f.fields ++ ofWord32 (Checksum.crc32 f.fields))

def decode (page : Bytes) : Option Footer :=
  let covered := page.take fieldsSize
  let flags := List.getD page 64 0
  if Checksum.crc32 covered = toWord32 (Bytes.slice fieldsSize 4 page) ∧ toWord32 (page.take 4) = magic then
    some {
      index := toWord32 (Bytes.slice 4 4 page)
      generation := toWord64 (Bytes.slice 8 8 page)
      mergedFrom := toWord64 (Bytes.slice 16 8 page)
      createdMillis := toWord64 (Bytes.slice 24 8 page)
      minKey := toInt64 (Bytes.slice 32 8 page)
      maxKey := toInt64 (Bytes.slice 40 8 page)
      items := toWord64 (Bytes.slice 48 8 page)
      dataSize := toWord64 (Bytes.slice 56 8 page)
      merged := flags % 2 == 1 }
  else none

def covers (f g : Footer) : Bool :=
  f.index != g.index && f.merged && f.mergedFrom ≤ g.mergedFrom && g.generation ≤ f.generation

def size (f : Footer) : Nat := alignToPage f.dataSize.toNat + pageSize

/-- The data of `f` is applied before that of `g`: by generation, sessions before merges. -/
def before (f g : Footer) : Bool :=
  f.generation < g.generation ||
    (f.generation == g.generation &&
      ((!f.merged && g.merged) || (f.merged == g.merged && f.index < g.index)))

end Footer

end MeteredStorage
