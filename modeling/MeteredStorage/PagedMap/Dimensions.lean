import MeteredStorage.PagedMap.Error
import MeteredStorage.Segment.Footer

namespace MeteredStorage

structure PageForm where
  keySize : Nat
  keySize_le : keySize ≤ 4064

namespace PageForm

def headerSize : Nat := 16

def valueOffset (f : PageForm) : Nat := 8 + f.keySize

def entrySize (f : PageForm) : Nat := f.valueOffset + 8

def perPage (f : PageForm) : Nat := (pageSize - headerSize) / f.entrySize

def entryOffset (f : PageForm) (i : Nat) : Nat := headerSize + i * f.entrySize

def ofKeySize (keySize : Nat) : Except MapError PageForm :=
  if h : keySize ≤ 4064 then .ok ⟨keySize, h⟩ else .error (.keyTooLarge keySize)

theorem perPage_pos (f : PageForm) : 0 < f.perPage := by
  have := f.keySize_le
  apply Nat.div_pos
  · simp only [entrySize, valueOffset, pageSize, headerSize]
    omega
  · simp [entrySize]

end PageForm

structure Dimensions where
  mapSize : UInt64
  form : PageForm
  /-- The fewest buckets with twice as many slots as expected entries. -/
  minimum : Nat
  buckets : Nat

namespace Dimensions

def slotsPerEntry : Nat := 2

def maxBuckets : Nat := 1 <<< 30

def ofMapSize (form : PageForm) (mapSize : UInt64) : Except MapError Dimensions :=
  let slots := mapSize.toNat * slotsPerEntry
  let minimum := (slots + (form.perPage - 1)) / form.perPage
  if mapSize = 0 ∨ 0x10000000000000000 ≤ slots ∨ maxBuckets ≤ minimum then .error (.invalidMapSize mapSize)
  else .ok ⟨mapSize, form, minimum, 1 <<< (minimum.log2 + 1)⟩

def bucketOf (d : Dimensions) (hash : Int32) : Nat := hash.toUInt32.toNat % d.buckets

def text (d : Dimensions) : String :=
  "HalfDiskHashMap Stats \x7b\n" ++
  s!"    map_size = {d.mapSize.toNat}\n" ++
  s!"    minimum_buckets = {d.minimum}\n" ++
  s!"    num_of_buckets = {d.buckets}\n" ++
  s!"    entries_per_bucket = {d.form.perPage}\n" ++
  s!"    entry_size = {d.form.entrySize}\n" ++
  s!"    value_offset = {d.form.valueOffset}\n" ++ "\x7d"

end Dimensions

end MeteredStorage
