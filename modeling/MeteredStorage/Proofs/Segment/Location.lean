import MeteredStorage.Segment.Location

namespace MeteredStorage.Location

@[irreducible] def pack (index : UInt32) (offset : Nat) : Int64 :=
  Int64.ofInt ((index.toNat + 1) * maxOffset + offset : Nat)

theorem maxOffset_eq : maxOffset = 0x10000000000 := by decide

theorem maxSegments_eq : maxSegments = 0x7fffff := by decide

theorem encode?_eq {index : UInt32} {offset : Nat} (hi : index.toNat < maxSegments)
    (ho : offset < maxOffset) : encode? index offset = some (pack index offset) := by
  rw [encode?, if_pos ⟨hi, ho⟩, pack]

theorem toInt_pack {index : UInt32} {offset : Nat} (hi : index.toNat < maxSegments)
    (ho : offset < maxOffset) :
    (pack index offset).toInt = (index.toNat + 1) * maxOffset + offset := by
  rw [maxOffset_eq] at *
  rw [maxSegments_eq] at hi
  rw [pack, maxOffset_eq, Int64.toInt_ofInt_of_le]
  · omega
  · omega
  · omega

theorem segment?_pack {index : UInt32} {offset : Nat} (hi : index.toNat < maxSegments)
    (ho : offset < maxOffset) : segment? (pack index offset) = some index := by
  have h := toInt_pack hi ho
  rw [maxOffset_eq] at *
  rw [segment?, h, maxOffset_eq, if_neg (by omega)]
  have hdiv : ((index.toNat + 1) * (0x10000000000 : Nat) + offset : Int).toNat / 0x10000000000 - 1 =
      index.toNat := by omega
  rw [hdiv, UInt32.ofNat_toNat]

theorem offset_pack {index : UInt32} {offset : Nat} (hi : index.toNat < maxSegments)
    (ho : offset < maxOffset) : Location.offset (pack index offset) = offset := by
  have h := toInt_pack hi ho
  rw [maxOffset_eq] at *
  rw [Location.offset, h, maxOffset_eq]
  omega

theorem pack_ne_zero {index : UInt32} {offset : Nat} (hi : index.toNat < maxSegments)
    (ho : offset < maxOffset) : pack index offset ≠ 0 := by
  intro h
  have ht := toInt_pack hi ho
  rw [h, maxOffset_eq] at ht
  have h0 : (0 : Int64).toInt = 0 := by decide
  omega

end MeteredStorage.Location
