import MeteredStorage.Proofs.Checksum
import MeteredStorage.Proofs.Segment.FooterPage

namespace MeteredStorage

namespace Bytes

def flipBits (offset : Nat) (mask : UInt8) (bs : Bytes) : Bytes := bs.modify offset (· ^^^ mask)

variable {offset : Nat} {mask : UInt8} {bs : Bytes}

theorem flipBits_eq_overlay (h : offset < bs.length) :
    flipBits offset mask bs = overlay offset [bs[offset] ^^^ mask] bs := by
  rw [overlay_of_le h, flipBits, List.modify_eq_take_cons_drop h]
  rfl

theorem flipBits_ne (h : offset < bs.length) (hmask : mask ≠ 0) : flipBits offset mask bs ≠ bs := by
  intro hsame
  have hbyte : (flipBits offset mask bs)[offset]? = some (bs[offset] ^^^ mask) := by
    rw [flipBits, List.getElem?_modify_eq, List.getElem?_eq_getElem h]
    rfl
  rw [hsame, List.getElem?_eq_getElem h, Option.some_inj] at hbyte
  have hzero : bs[offset] ^^^ 0 = bs[offset] ^^^ mask := by rwa [UInt8.xor_zero]
  exact hmask ((UInt8.xor_right_inj _).mp hzero).symm

end Bytes

namespace Footer

open BigEndian

variable {offset : Nat} {new : Bytes}

/-- A page whose fields do not have their checksum behind them is no footer. -/
theorem decode_append_eq_none {covered stored rest : Bytes} (hcovered : covered.length = fieldsSize)
    (hstored : stored.length = 4) (hne : Checksum.crc32 covered ≠ toWord32 stored) :
    decode (covered ++ (stored ++ rest)) = none := by
  have htake : (covered ++ (stored ++ rest)).take fieldsSize = covered := List.take_left' hcovered
  have hslice : Bytes.slice fieldsSize 4 (covered ++ (stored ++ rest)) = stored := by
    rw [Bytes.slice, List.drop_left' hcovered, List.take_left' hstored]
  rw [decode]
  simp only [htake, hslice]
  exact if_neg fun h => hne h.1

/-- A write of up to four bytes into the fields leaves no footer, unless it changes nothing. -/
theorem decode_overlay_fields (f : Footer) (hin : offset + new.length ≤ fieldsSize)
    (hfour : new.length ≤ 4) (hne : Bytes.overlay offset new f.encode ≠ f.encode) :
    decode (Bytes.overlay offset new f.encode) = none := by
  have hfields : offset + new.length ≤ f.fields.length := by rwa [length_fields]
  have hpage := Bytes.overlay_inside hfields [] (ofWord32 (Checksum.crc32 f.fields) ++
    Bytes.zeros (pageSize - (fieldsSize + 4)))
  rw [List.length_nil, Nat.zero_add, List.nil_append, List.nil_append, ← encode_eq] at hpage
  have hchanged : Bytes.overlay offset new f.fields ≠ f.fields := by
    intro hsame
    rw [hsame, ← encode_eq] at hpage
    exact hne hpage
  rw [hpage]
  apply decode_append_eq_none _ (length_ofWord32 _)
  · rw [toWord32_ofWord32]
    exact Checksum.crc32_overlay_ne hfields hfour hchanged
  · rw [Bytes.length_overlay_of_le hfields, length_fields]

/-- So does a write into the checksum. -/
theorem decode_overlay_checksum (f : Footer) (hin : offset + new.length ≤ 4)
    (hne : Bytes.overlay (fieldsSize + offset) new f.encode ≠ f.encode) :
    decode (Bytes.overlay (fieldsSize + offset) new f.encode) = none := by
  have hstored : offset + new.length ≤ (ofWord32 (Checksum.crc32 f.fields)).length := by
    rwa [length_ofWord32]
  have hpage := Bytes.overlay_inside hstored f.fields (Bytes.zeros (pageSize - (fieldsSize + 4)))
  rw [← encode_eq, length_fields] at hpage
  have hlength : (Bytes.overlay offset new (ofWord32 (Checksum.crc32 f.fields))).length = 4 := by
    rw [Bytes.length_overlay_of_le hstored, length_ofWord32]
  rw [hpage]
  apply decode_append_eq_none f.length_fields hlength
  intro hfits
  have hsame : Bytes.overlay offset new (ofWord32 (Checksum.crc32 f.fields)) =
      ofWord32 (Checksum.crc32 f.fields) :=
    (ofWord32_toWord32 hlength).symm.trans (congrArg ofWord32 hfits.symm)
  rw [hsame, ← encode_eq] at hpage
  exact hne hpage

set_option maxRecDepth 2000 in
/-- Four bytes that lie half in the fields and half in the checksum can make another footer. -/
example :
    decode (Bytes.overlay 63 [0xe9, 0xd9, 0x1a, 0xe4] (encode ⟨7, 9, 3, 0, -1, 100, 2, 5000, true⟩)) =
      some ⟨7, 9, 3, 0, -1, 100, 2, 5097, true⟩ := by decide +kernel

/--
A footer that has been written reads back, and once any bits of one byte of its fields or of their
checksum are inverted, none is read.
-/
theorem encode_detects_flips (f : Footer) :
    decode f.encode = some f ∧
    ∀ (offset : Nat) (mask : UInt8), offset < fieldsSize + 4 → mask ≠ 0 →
      decode (Bytes.flipBits offset mask f.encode) = none := by
  refine ⟨f.decode_encode, ?_⟩
  intro offset mask hoffset hmask
  have hlength : offset < f.encode.length := by
    rw [length_encode]
    exact Nat.lt_of_lt_of_le hoffset (by decide)
  have hne := Bytes.flipBits_ne hlength hmask
  rw [Bytes.flipBits_eq_overlay hlength] at hne ⊢
  by_cases hfields : offset < fieldsSize
  · exact f.decode_overlay_fields hfields (by simp) hne
  · obtain ⟨k, rfl⟩ := Nat.exists_eq_add_of_le (Nat.le_of_not_lt hfields)
    exact f.decode_overlay_checksum (by simp only [List.length_singleton]; omega) hne

/-- The flags of a merged segment, all eight bits of a byte of its generation, and the end of the checksum. -/
theorem encode_detects_flips_merged :
    let f : Footer := ⟨7, 9, 3, 0, -1, 100, 2, 5000, true⟩
    (64 < fieldsSize + 4 ∧ 10 < fieldsSize + 4 ∧ 68 < fieldsSize + 4) ∧
      ((1 : UInt8) ≠ 0 ∧ (0xff : UInt8) ≠ 0 ∧ (0x80 : UInt8) ≠ 0) ∧ decode f.encode = some f ∧
      decode (Bytes.flipBits 64 1 f.encode) = none ∧ decode (Bytes.flipBits 10 0xff f.encode) = none ∧
      decode (Bytes.flipBits 68 0x80 f.encode) = none := by
  intro f
  obtain ⟨hread, hflips⟩ := encode_detects_flips f
  exact ⟨by decide, by decide, hread, hflips 64 1 (by decide) (by decide),
    hflips 10 0xff (by decide) (by decide), hflips 68 0x80 (by decide) (by decide)⟩

end Footer

end MeteredStorage
