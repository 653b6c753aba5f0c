import MeteredStorage.Segment.Basic

namespace MeteredStorage

inductive ArchiveError.OfReading : ArchiveError → Prop
  | disk (e : DiskError) : OfReading (.disk e)
  | corrupt (location : Int64) : OfReading (.recordCorrupt location)
  | small (needed got : Nat) : OfReading (.bufferTooSmall needed got)
  | range : OfReading .outOfRange

namespace Segment

variable {x : Segment} {d : Disk} {offset room : Nat} {part : Part} {e : ArchiveError}

theorem locationOf_error (h : x.locationOf offset = .error e) : e = .outOfRange := by
  rw [locationOf] at h
  split at h
  · cases h
  · cases h
    rfl

theorem ofReading_corrupt (x : Segment) (offset : Nat) : (x.corrupt offset).OfReading := by
  rw [corrupt]
  split
  · exact .corrupt _
  · rename_i e h
    rw [locationOf_error h]
    exact .range

theorem records_error (h : (x.records d).2 = .error e) : e.OfReading := by
  rw [records] at h
  split at h
  · cases h
  · rename_i f _
    split at h
    · rename_i e' harea
      cases h
      rw [dataArea] at harea
      split at harea
      · cases harea
        exact .disk _
      · cases harea
        exact .disk _
      · cases harea
      · cases harea
    · split at h
      · cases h
      · cases h
        exact x.ofReading_corrupt _

theorem read_error_cases (h : x.read d offset part room = .error e) :
    e = x.corrupt offset ∨ ∃ needed, e = .bufferTooSmall needed room := by
  rw [read] at h
  split at h
  · cases h
    exact .inl rfl
  · dsimp only at h
    split at h
    · cases h
      exact .inl rfl
    · split at h
      · cases h
        exact .inr ⟨_, rfl⟩
      · split at h
        · cases h
        · split at h
          · cases h
            exact .inl rfl
          · cases h

theorem read_error (h : x.read d offset part room = .error e) : e.OfReading := by
  rcases read_error_cases h with rfl | ⟨needed, rfl⟩
  · exact x.ofReading_corrupt offset
  · exact .small _ _

theorem stated_lt (header : Bytes) : (Record.ofHeader header).2 < 0x100000000 :=
  (BigEndian.toWord32 (header.drop 8)).toNat_lt

theorem partSize_le (part : Part) (length : Nat) : partSize part length ≤ 8 + length := by
  cases part <;> simp [partSize]

theorem partSize_sub (part : Part) (length : Nat) :
    partSize part length - partSize part 0 = if part = .key then 0 else length := by
  cases part <;> simp [partSize]

theorem length_partBytes_iff {keyBytes rest : Bytes} {length : Nat} (hkey : keyBytes.length = 8) :
    (partBytes part keyBytes (rest.take length)).length = partSize part length ↔
      ¬rest.length < partSize part length - partSize part 0 := by
  cases part with
  | key => simp [partBytes, partSize, hkey]
  | data =>
      rw [partBytes, partSize, partSize, List.length_take]
      omega
  | both =>
      rw [partBytes, partSize, partSize, List.length_append, List.length_take, hkey]
      omega

theorem read_eq {header rest : Bytes} {room : Nat}
    (h : Bytes.split? Record.headerSize ((d.content x.slot).drop offset) = some (header, rest)) :
    x.read d offset part room =
      let length := (Record.ofHeader header).2
      if x.footer.any fun f => f.dataSize.toNat < offset + Record.headerSize + length then
        .error (x.corrupt offset)
      else if room < partSize part length then .error (.bufferTooSmall (partSize part length) room)
      else if rest.length < partSize part length - partSize part 0 then .error (x.corrupt offset)
      else .ok (partBytes part (header.take 8) (rest.take length)) := by
  rw [read, h]
  simp only [partSize_sub]
  generalize (Record.ofHeader header).2 = length
  congr 2
  by_cases hpart : part = .key
  · subst hpart
    rfl
  rw [if_neg hpart, if_neg hpart, Bytes.split?, List.length_take]
  by_cases hshort : rest.length < length
  · rw [if_pos hshort, if_neg (by omega)]
  · rw [if_neg hshort, if_pos (by omega)]

def statedLength (x : Segment) (d : Disk) (offset : Nat) : Nat :=
  (Record.ofHeader (Bytes.slice offset Record.headerSize (d.content x.slot))).2

def partAt (x : Segment) (d : Disk) (offset : Nat) (part : Part) : Bytes :=
  partBytes part (Bytes.slice offset 8 (d.content x.slot))
    (Bytes.slice (offset + Record.headerSize) (x.statedLength d offset) (d.content x.slot))

theorem parts_of_split (part : Part) {header rest : Bytes}
    (h : Bytes.split? Record.headerSize ((d.content x.slot).drop offset) = some (header, rest)) :
    x.statedLength d offset = (Record.ofHeader header).2 ∧
      x.partAt d offset part = partBytes part (header.take 8) (rest.take (Record.ofHeader header).2) := by
  obtain ⟨hlength, happend⟩ := Bytes.split?_eq_some_iff.mp h
  have hheader : Bytes.slice offset Record.headerSize (d.content x.slot) = header := by
    rw [Bytes.slice, happend, List.take_left' hlength]
  have hkey : Bytes.slice offset 8 (d.content x.slot) = header.take 8 := by
    rw [Bytes.slice, happend, List.take_append_of_le_length (by rw [hlength]; decide)]
  have hrest : (d.content x.slot).drop (offset + Record.headerSize) = rest := by
    rw [← List.drop_drop, happend, List.drop_left' hlength]
  have hstated : x.statedLength d offset = (Record.ofHeader header).2 := by rw [statedLength, hheader]
  exact ⟨hstated, by rw [partAt, hkey, Bytes.slice, hrest, hstated]⟩

theorem length_keyBytes {header rest bs : Bytes}
    (h : Bytes.split? Record.headerSize bs = some (header, rest)) : (header.take 8).length = 8 := by
  rw [List.length_take, (Bytes.split?_eq_some_iff.mp h).1]
  rfl

theorem split?_content (x : Segment) (d : Disk) (offset : Nat) :
    (offset + Record.headerSize ≤ (d.content x.slot).length ∧
        ∃ header rest, Bytes.split? Record.headerSize ((d.content x.slot).drop offset) =
          some (header, rest)) ∨
      ((d.content x.slot).length < offset + Record.headerSize ∧
        Bytes.split? Record.headerSize ((d.content x.slot).drop offset) = none) := by
  rw [Bytes.split?, List.length_take, List.length_drop]
  by_cases hheld : offset + Record.headerSize ≤ (d.content x.slot).length
  · exact .inl ⟨hheld, _, _, if_pos (by omega)⟩
  · exact .inr ⟨by omega, if_neg (by rw [Record.headerSize] at *; omega)⟩

/-- What a read with `room` bytes gives, and where it lies. -/
structure Serves (x : Segment) (d : Disk) (offset : Nat) (part : Part) (room : Nat) (bytes : Bytes) :
    Prop where
  bytes_eq : bytes = x.partAt d offset part
  /-- The file holds the header. -/
  header : offset + Record.headerSize ≤ (d.content x.slot).length
  /-- In a completed segment the record lies in the data area, even if only its key is read. -/
  inside : ∀ f, x.footer = some f →
    offset + Record.headerSize + x.statedLength d offset ≤ f.dataSize.toNat
  length_eq : bytes.length = partSize part (x.statedLength d offset)
  fits : bytes.length ≤ room

theorem inside_iff {n : Nat} : (¬x.footer.any fun f => f.dataSize.toNat < n) ↔
    ∀ f, x.footer = some f → n ≤ f.dataSize.toNat := by
  cases x.footer <;> simp

theorem corrupt_ne_small (x : Segment) (offset needed got : Nat) :
    x.corrupt offset ≠ .bufferTooSmall needed got := by
  rw [corrupt]
  split
  · nofun
  · rename_i e h
    rw [locationOf_error h]
    nofun

theorem read_eq_ok_iff {bytes : Bytes} :
    x.read d offset part room = .ok bytes ↔ x.Serves d offset part room bytes := by
  rcases x.split?_content d offset with ⟨hheld, header, rest, hsplit⟩ | ⟨hshort, hsplit⟩
  · obtain ⟨hstated, hpart⟩ := parts_of_split part hsplit
    have hkey := length_keyBytes hsplit
    rw [read_eq hsplit, ← hstated] at *
    simp only
    rw [← hpart]
    constructor
    · intro h
      split at h
      · cases h
      rename_i hinside
      split at h
      · cases h
      rename_i hroom
      split at h
      · cases h
      rename_i hrest
      cases h
      have hlength := (length_partBytes_iff hkey).mpr hrest
      rw [← hpart] at hlength
      exact ⟨rfl, hheld, inside_iff.mp hinside, hlength, hlength ▸ Nat.not_lt.mp hroom⟩
    · intro h
      have hroom := h.fits
      have hrest := h.length_eq
      rw [h.length_eq] at hroom
      rw [h.bytes_eq, hpart, length_partBytes_iff hkey] at hrest
      rw [if_neg (inside_iff.mpr h.inside), if_neg (Nat.not_lt.mpr hroom), if_neg hrest, h.bytes_eq]
  · rw [read, hsplit]
    exact ⟨nofun, fun h => absurd h.header (Nat.not_le.mpr hshort)⟩

theorem read_eq_small_iff {needed got : Nat} :
    x.read d offset part room = .error (.bufferTooSmall needed got) ↔
      offset + Record.headerSize ≤ (d.content x.slot).length ∧
        (∀ f, x.footer = some f →
          offset + Record.headerSize + x.statedLength d offset ≤ f.dataSize.toNat) ∧
        needed = partSize part (x.statedLength d offset) ∧ got = room ∧ room < needed := by
  rcases x.split?_content d offset with ⟨hheld, header, rest, hsplit⟩ | ⟨hshort, hsplit⟩
  · obtain ⟨hstated, -⟩ := parts_of_split part hsplit
    rw [read_eq hsplit, ← hstated]
    simp only
    constructor
    · intro h
      split at h
      · exact absurd (Except.error.inj h) (x.corrupt_ne_small offset needed got)
      rename_i hinside
      split at h
      · rename_i hroom
        cases h
        exact ⟨hheld, inside_iff.mp hinside, rfl, rfl, hroom⟩
      split at h
      · exact absurd (Except.error.inj h) (x.corrupt_ne_small offset needed got)
      · cases h
    · rintro ⟨-, hinside, rfl, rfl, hroom⟩
      rw [if_neg (inside_iff.mpr hinside), if_pos hroom]
  · rw [read, hsplit]
    exact ⟨fun h => absurd (Except.error.inj h) (x.corrupt_ne_small offset needed got),
      fun h => absurd h.1 (Nat.not_le.mpr hshort)⟩

theorem Serves.parts {bytes : Bytes} (h : x.Serves d offset .both room bytes) :
    bytes = x.partAt d offset .key ++ x.partAt d offset .data ∧
      x.Serves d offset .key (x.partAt d offset .key).length (x.partAt d offset .key) ∧
      x.Serves d offset .data (x.partAt d offset .data).length (x.partAt d offset .data) := by
  have hheld := h.header
  have hlength := h.length_eq
  rw [h.bytes_eq, partAt, partBytes, partSize, List.length_append] at hlength
  have hkey : (x.partAt d offset .key).length = 8 := by
    rw [partAt, partBytes, Bytes.slice, List.length_take, List.length_drop]
    rw [Record.headerSize] at hheld
    omega
  have hdata : (x.partAt d offset .data).length = x.statedLength d offset := by
    have hkey' : (Bytes.slice offset 8 (d.content x.slot)).length = 8 := hkey
    rw [hkey'] at hlength
    exact Nat.add_left_cancel hlength
  exact ⟨h.bytes_eq, ⟨rfl, hheld, h.inside, hkey, Nat.le_refl _⟩,
    ⟨rfl, hheld, h.inside, hdata, Nat.le_refl _⟩⟩

theorem Serves.mono {bytes : Bytes} {room' : Nat} (h : x.Serves d offset part room bytes)
    (hroom : bytes.length ≤ room') : x.Serves d offset part room' bytes :=
  ⟨h.bytes_eq, h.header, h.inside, h.length_eq, hroom⟩

end Segment

end MeteredStorage
