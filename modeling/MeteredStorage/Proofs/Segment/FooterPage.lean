import MeteredStorage.Segment.Footer

namespace MeteredStorage

theorem alignToPage_le (n : Nat) : n ≤ alignToPage n := by
  simp only [alignToPage, pageSize]
  omega

namespace Footer

open BigEndian

theorem length_fields (f : Footer) : f.fields.length = fieldsSize := by
  simp [fields, fieldsSize]

theorem length_encode (f : Footer) : f.encode.length = pageSize := Bytes.length_resize ..

theorem encode_eq (f : Footer) :
    f.encode = f.fields ++ (ofWord32 (Checksum.crc32 f.fields) ++
      Bytes.zeros (pageSize - (fieldsSize + 4))) := by
  have hl : (f.fields ++ ofWord32 (Checksum.crc32 f.fields)).length = fieldsSize + 4 := by
    rw [List.length_append, length_fields, length_ofWord32]
  rw [encode, Bytes.resize, hl, List.take_of_length_le (by rw [hl]; decide), List.append_assoc]

theorem slice_encode (f : Footer) (offset n : Nat) (h : offset + n ≤ fieldsSize) :
    Bytes.slice offset n f.encode = Bytes.slice offset n f.fields := by
  rw [encode_eq, Bytes.slice, Bytes.slice, List.drop_append_of_le_length,
    List.take_append_of_le_length]
  · rw [List.length_drop, length_fields]; omega
  · rw [length_fields]; omega

theorem decode_encode (f : Footer) : decode f.encode = some f := by
  have hcovered : f.encode.take fieldsSize = f.fields := by
    rw [encode_eq, List.take_left' f.length_fields]
  have hcrc : Bytes.slice fieldsSize 4 f.encode = ofWord32 (Checksum.crc32 f.fields) := by
    rw [encode_eq, Bytes.slice, List.drop_left' f.length_fields, List.take_left' (length_ofWord32 _)]
  have hmagic : f.encode.take 4 = ofWord32 magic := by
    have h := f.slice_encode 0 4 (by decide)
    rw [Bytes.slice, Bytes.slice, List.drop_zero, List.drop_zero] at h
    rw [h]
    simp [fields]
  have hflag : List.getD f.encode 64 0 = if f.merged then 1 else 0 := by
    rw [encode_eq, List.getD_eq_getElem?_getD,
      List.getElem?_append_left (by rw [length_fields]; decide)]
    simp [fields]
  unfold decode
  simp only [hcovered, hcrc, hmagic, hflag, toWord32_ofWord32, and_self, if_true]
  rw [slice_encode f 4 4 (by decide), slice_encode f 8 8 (by decide),
    slice_encode f 16 8 (by decide), slice_encode f 24 8 (by decide),
    slice_encode f 32 8 (by decide), slice_encode f 40 8 (by decide),
    slice_encode f 48 8 (by decide), slice_encode f 56 8 (by decide)]
  obtain ⟨index, generation, mergedFrom, created, minKey, maxKey, items, dataSize, merged⟩ := f
  clear hcovered hcrc hmagic hflag
  cases merged <;> simp [Bytes.slice, fields, List.drop_append, List.drop_of_length_le]

end Footer

end MeteredStorage
