import Mathlib.Data.Set.Function
import MeteredStorage.Proofs.Segment.Trapping

namespace MeteredStorage.Location

def Addressable (p : UInt32 × Nat) : Prop := p.1.toNat < maxSegments ∧ p.2 < maxOffset

def packBits (index : UInt32) (offset : UInt64) : Int64 :=
  ((index.toUInt64 + 1) <<< UInt64.ofNat offsetBits ||| offset).toInt64

def highBits? (location : Int64) : Option UInt32 :=
  if location ≤ 0 then none
  else (Word.unsigned32 ((location >>> Int64.ofNat offsetBits) - 1).toInt).map fun i =>
    UInt32.ofNat i.toNat

def lowBits (location : Int64) : UInt64 := location.toUInt64 &&& UInt64.ofNat (maxOffset - 1)

theorem toNat_packed {index : UInt32} {offset : UInt64} (hi : index.toNat < maxSegments)
    (ho : offset.toNat < maxOffset) :
    ((index.toUInt64 + 1) <<< UInt64.ofNat offsetBits ||| offset).toNat =
      (index.toNat + 1) * maxOffset + offset.toNat := by
  have hbits : (UInt64.ofNat offsetBits).toNat % 64 = 40 := by decide
  have hindex : (index.toUInt64 + 1).toNat = index.toNat + 1 := by
    rw [maxSegments_eq] at hi
    rw [UInt64.toNat_add, UInt32.toNat_toUInt64, UInt64.toNat_one]
    omega
  rw [maxOffset_eq] at ho
  rw [maxSegments_eq] at hi
  have hfits : (index.toNat + 1) <<< 40 < 2 ^ 64 := by
    rw [Nat.shiftLeft_eq]
    omega
  rw [UInt64.toNat_or, UInt64.toNat_shiftLeft, hbits, hindex, Nat.mod_eq_of_lt hfits,
    ← Nat.shiftLeft_add_eq_or_of_lt ho, Nat.shiftLeft_eq, maxOffset_eq]

theorem packBits_eq {index : UInt32} {offset : UInt64} (hi : index.toNat < maxSegments)
    (ho : offset.toNat < maxOffset) : packBits index offset = pack index offset.toNat := by
  apply Int64.toInt_inj.mp
  have hnat := toNat_packed hi ho
  rw [toInt_pack hi ho, packBits]
  rw [maxOffset_eq] at *
  rw [maxSegments_eq] at hi
  -- The sign bit stays clear, since the last index is not used.
  rw [Int64.toInt, UInt64.toBitVec_toInt64, BitVec.toInt_eq_toNat_of_lt]
  · exact_mod_cast hnat
  · change 2 * UInt64.toNat _ < 2 ^ 64
    rw [hnat]
    omega

theorem toInt_shiftRight (location : Int64) :
    (location >>> Int64.ofNat offsetBits).toInt = location.toInt / maxOffset := by
  have hbits : (Int64.ofNat offsetBits).toBitVec.smod 64 = 40#64 := by decide
  have hpower : (2 ^ 40 : Nat) = maxOffset := maxOffset_eq.symm
  rw [Int64.toInt, Int64.toBitVec_shiftRight, hbits, BitVec.sshiftRight_eq', BitVec.toInt_sshiftRight]
  change location.toInt >>> (40 : Nat) = _
  rw [Int.shiftRight_eq_div_pow, hpower]

theorem highBits?_eq (location : Int64) : highBits? location = segment? location := by
  have hlo := location.le_toInt
  have hhi := location.toInt_lt
  have hone : (1 : Int64).toInt = 1 := by decide
  have hsign : location ≤ 0 ↔ location.toInt ≤ 0 := Int64.le_iff_toInt_le
  rw [highBits?, segment?]
  by_cases hpositive : location ≤ 0
  · have hfirst := hsign.mp hpositive
    rw [if_pos hpositive, if_pos (by rw [maxOffset_eq]; omega)]
  have hhigh : (location >>> Int64.ofNat offsetBits - 1).toInt = location.toInt / maxOffset - 1 := by
    rw [Int64.toInt_sub, toInt_shiftRight, hone, maxOffset_eq]
    exact Int.bmod_eq_of_le (by omega) (by omega)
  rw [if_neg hpositive, hhigh, Word.unsigned32]
  by_cases hfirst : location.toInt < maxOffset
  · rw [if_pos hfirst, Word.checked_eq_none, Option.map_none]
    rw [maxOffset_eq] at *
    omega
  · rw [if_neg hfirst, maxOffset_eq] at *
    rw [Word.checked_eq_some (by omega) (by omega), Option.map_some]
    congr 2
    omega

theorem lowBits_eq (location : Int64) : (lowBits location).toNat = offset location := by
  have hmask : (UInt64.ofNat (maxOffset - 1)).toNat = 2 ^ 40 - 1 := by decide
  have hsigned := BitVec.toInt_eq_toNat_cond location.toBitVec
  change location.toInt = if 2 * location.toUInt64.toNat < 2 ^ 64 then (location.toUInt64.toNat : Int)
    else location.toUInt64.toNat - (2 ^ 64 : Nat) at hsigned
  rw [lowBits, UInt64.toNat_and, hmask, Nat.and_two_pow_sub_one_eq_mod, offset, maxOffset_eq]
  split at hsigned <;> omega

theorem encode?_eq_some_iff {index : UInt32} {offset : Nat} {location : Int64} :
    encode? index offset = some location ↔
      segment? location = some index ∧ Location.offset location = offset := by
  constructor
  · intro h
    by_cases hr : index.toNat < maxSegments ∧ offset < maxOffset
    · rw [encode?_eq hr.1 hr.2] at h
      cases h
      exact ⟨segment?_pack hr.1 hr.2, offset_pack hr.1 hr.2⟩
    · rw [encode?, if_neg hr] at h
      cases h
  · rintro ⟨hindex, rfl⟩
    rw [encode?_eq (lt_maxSegments_of_segment? hindex) (offset_lt location), pack_offset hindex]

theorem toInt_of_encode? {index : UInt32} {offset : Nat} {location : Int64}
    (h : encode? index offset = some location) :
    Addressable (index, offset) ∧ location.toInt = (index.toNat + 1) * maxOffset + offset := by
  obtain ⟨hindex, rfl⟩ := encode?_eq_some_iff.mp h
  have hi := lt_maxSegments_of_segment? hindex
  have ho := offset_lt location
  refine ⟨⟨hi, ho⟩, ?_⟩
  rw [← toInt_pack hi ho, pack_offset hindex]

theorem lt_iff_of_encode? {index index' : UInt32} {offset offset' : Nat} {location location' : Int64}
    (h : encode? index offset = some location) (h' : encode? index' offset' = some location') :
    location < location' ↔ index < index' ∨ index = index' ∧ offset < offset' := by
  obtain ⟨⟨-, ho⟩, hl⟩ := toInt_of_encode? h
  obtain ⟨⟨-, ho'⟩, hl'⟩ := toInt_of_encode? h'
  simp only [maxOffset_eq] at *
  rw [Int64.lt_iff_toInt_lt, hl, hl', UInt32.lt_iff_toNat_lt, ← UInt32.toNat_inj]
  omega

theorem exists_encode?_eq_some {location : Int64} (h : (maxOffset : Int) ≤ location.toInt) :
    ∃ index, segment? location = some index ∧ encode? index (offset location) = some location := by
  have hsome : segment? location ≠ none := fun hnone =>
    Int.not_lt.mpr h ((segment?_eq_none_iff location).mp hnone)
  obtain ⟨index, hindex⟩ := Option.ne_none_iff_exists'.mp hsome
  exact ⟨index, hindex, encode?_eq_some_iff.mpr ⟨hindex, rfl⟩⟩

theorem bijOn_encode? : Set.BijOn (fun p : UInt32 × Nat => encode? p.1 p.2) {p | Addressable p}
    (some '' {location | (maxOffset : Int) ≤ location.toInt}) := by
  refine ⟨?_, ?_, ?_⟩
  · rintro ⟨index, offset⟩ ⟨hi, ho⟩
    refine ⟨pack index offset, ?_, (encode?_eq hi ho).symm⟩
    change (maxOffset : Int) ≤ (pack index offset).toInt
    rw [toInt_pack hi ho, maxOffset_eq]
    omega
  · rintro ⟨index, offset⟩ ⟨hi, ho⟩ ⟨index', offset'⟩ - h
    change encode? index offset = encode? index' offset' at h
    rw [encode?_eq hi ho, eq_comm, encode?_eq_some_iff, segment?_pack hi ho, offset_pack hi ho] at h
    exact Prod.ext (Option.some.inj h.1) h.2
  · rintro _ ⟨location, hl, rfl⟩
    obtain ⟨index, hindex, hencode⟩ := exists_encode?_eq_some hl
    exact ⟨(index, offset location), ⟨lt_maxSegments_of_segment? hindex, offset_lt location⟩, hencode⟩

/--
Locations are the pairs in range: every such pair has one, which is positive and tells it, every word
from the first location on is one, smaller words are none, and the order is that of the pairs. Shifts
and masks of words compute it all.
-/
theorem encode?_bijective :
    Set.BijOn (fun p : UInt32 × Nat => encode? p.1 p.2) {p | Addressable p}
      (some '' {location | (maxOffset : Int) ≤ location.toInt}) ∧
    (∀ (index : UInt32) (offset : UInt64), Addressable (index, offset.toNat) →
      encode? index offset.toNat = some (packBits index offset) ∧ 0 < packBits index offset ∧
        segment? (packBits index offset) = some index ∧
        Location.offset (packBits index offset) = offset.toNat) ∧
    (∀ location : Int64, segment? location = highBits? location ∧
      offset location = (lowBits location).toNat ∧
      (maxOffset ≤ location.toInt → ∃ index, segment? location = some index ∧
        encode? index (offset location) = some location) ∧
      (location.toInt < maxOffset → segment? location = none)) ∧
    ∀ (index index' : UInt32) (offset offset' : Nat) (location location' : Int64),
      encode? index offset = some location → encode? index' offset' = some location' →
        (location < location' ↔ index < index' ∨ index = index' ∧ offset < offset') := by
  refine ⟨bijOn_encode?, ?_, ?_, ?_⟩
  · rintro index offset ⟨hi, ho⟩
    have hencode := encode?_eq hi ho
    rw [packBits_eq hi ho]
    refine ⟨hencode, ?_, encode?_eq_some_iff.mp hencode⟩
    rw [Int64.lt_iff_toInt_lt, toInt_pack hi ho, maxOffset_eq]
    change (0 : Int) < _
    omega
  · intro location
    exact ⟨(highBits?_eq location).symm, (lowBits_eq location).symm, exists_encode?_eq_some,
      (segment?_eq_none_iff location).mpr⟩
  · intro index index' offset offset' location location' h h'
    exact lt_iff_of_encode? h h'

/-- The last pair in range has the greatest word, and the first offset of its segment a smaller one. -/
theorem encode?_bijective_last : Addressable (0x7ffffe, 0xffffffffff) ∧
    encode? 0x7ffffe 0xffffffffff = some 0x7fffffffffffffff ∧
    segment? 0x7fffffffffffffff = some 0x7ffffe ∧ offset 0x7fffffffffffffff = 0xffffffffff ∧
    encode? 0x7ffffe 0 = some 0x7fffff0000000000 ∧
    (0x7fffff0000000000 : Int64) < 0x7fffffffffffffff ∧ segment? 0xffffffffff = none := by
  have hrange : Addressable (0x7ffffe, 0xffffffffff) := ⟨by decide, by decide⟩
  have hfirst : encode? 0x7ffffe 0 = some 0x7fffff0000000000 := by decide
  obtain ⟨-, hpack, hwords, horder⟩ := encode?_bijective
  obtain ⟨hencode, -, hindex, hoffset⟩ := hpack 0x7ffffe 0xffffffffff hrange
  obtain ⟨-, -, -, hnone⟩ := hwords 0xffffffffff
  exact ⟨hrange, hencode, hindex, hoffset, hfirst,
    (horder _ _ _ _ _ _ hfirst hencode).mpr (.inr ⟨rfl, by decide⟩), hnone (by decide)⟩

end MeteredStorage.Location
