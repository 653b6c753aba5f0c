import MeteredStorage.Proofs.Bytes
import MeteredStorage.Proofs.Segment.Location
import MeteredStorage.Proofs.Segment.Reading
import MeteredStorage.Proofs.Word

namespace MeteredStorage

open Word

namespace Bytes

def fillSlice? (start stop : Nat) (bytes buffer : Bytes) : Option Bytes :=
  if start ≤ stop ∧ stop ≤ buffer.length then some (overlay start (bytes.take (stop - start)) buffer)
  else none

theorem fillSlice?_eq_some {start stop : Nat} {bytes buffer : Bytes} (hforth : start ≤ stop)
    (hroom : stop ≤ buffer.length) :
    fillSlice? start stop bytes buffer = some (overlay start (bytes.take (stop - start)) buffer) :=
  if_pos ⟨hforth, hroom⟩

end Bytes

namespace Location

def segmentInWords? (location : Int64) : Option (Option UInt32) :=
  if location.toInt ≤ 0 then some none
  else do
    let index ← signed64 (location.toInt / maxOffset - 1)
    return (unsigned32 index).map fun i => UInt32.ofNat i.toNat

theorem segmentInWords?_eq (location : Int64) : segmentInWords? location = some (segment? location) := by
  have hlo := location.le_toInt
  have hhi := location.toInt_lt
  rw [segmentInWords?, segment?, maxOffset_eq]
  by_cases hpositive : location.toInt ≤ 0
  · rw [if_pos hpositive, if_pos (by omega)]
  · rw [if_neg hpositive, signed64, checked_bind (by omega) (by omega)]
    by_cases hfirst : location.toInt < (0x10000000000 : Nat)
    · have hnone : unsigned32 (location.toInt / (0x10000000000 : Nat) - 1) = none :=
        if_neg (by omega)
      rw [if_pos hfirst, hnone]
      rfl
    · have hsome : unsigned32 (location.toInt / (0x10000000000 : Nat) - 1) =
          some (location.toInt / (0x10000000000 : Nat) - 1) := checked_eq_some (by omega) (by omega)
      have hnat : (location.toInt / (0x10000000000 : Nat) - 1).toNat =
          location.toInt.toNat / 0x10000000000 - 1 := by omega
      rw [if_neg hfirst, hsome, Option.map_some, hnat]
      rfl

theorem segment?_eq_none_iff (location : Int64) :
    segment? location = none ↔ location.toInt < maxOffset := by
  rw [segment?]
  split <;> simp [*]

theorem lt_maxSegments_of_segment? {location : Int64} {index : UInt32}
    (h : segment? location = some index) : index.toNat < maxSegments := by
  have hhi := location.toInt_lt
  rw [segment?, maxOffset_eq] at h
  split at h
  · cases h
  · cases h
    rw [maxSegments_eq, UInt32.toNat_ofNat']
    omega

theorem offset_lt (location : Int64) : offset location < maxOffset := by
  rw [offset, maxOffset_eq]
  omega

/-- The location is made of what it is taken apart into. -/
theorem pack_offset {location : Int64} {index : UInt32} (h : segment? location = some index) :
    pack index (offset location) = location := by
  have hi := lt_maxSegments_of_segment? h
  have ho := offset_lt location
  have hlo := location.le_toInt
  have hhi := location.toInt_lt
  apply Int64.toInt_inj.mp
  rw [toInt_pack hi ho]
  rw [segment?, maxOffset_eq] at h
  split at h
  · cases h
  · cases h
    rw [maxOffset_eq, offset, maxOffset_eq, UInt32.toNat_ofNat']
    omega

end Location

inductive Delivers (buffer : Bytes) :
    Except ArchiveError Bytes → Option (Except ArchiveError Nat × Bytes) → Prop
  | ok (bytes : Bytes) : Delivers buffer (.ok bytes) (some (.ok bytes.length, Bytes.overlay 0 bytes buffer))
  | kept (e : ArchiveError) : Delivers buffer (.error e) (some (.error e, buffer))
  /-- What is there of a record that the file does not hold in full is copied. -/
  | torn (l : Int64) (after : Bytes) :
      Delivers buffer (.error (.recordCorrupt l)) (some (.error (.recordCorrupt l), after))

theorem Delivers.left {buffer : Bytes} {result : Except ArchiveError Bytes}
    {outcome : Option (Except ArchiveError Nat × Bytes)} (h : Delivers buffer result outcome) :
    ∃ after, outcome = some (result.map List.length, after) ∧
      (∀ bytes, result = .ok bytes → after = Bytes.overlay 0 bytes buffer) ∧
      ∀ needed got, result = .error (.bufferTooSmall needed got) → after = buffer := by
  cases h with
  | ok bytes =>
      refine ⟨_, rfl, fun bytes' h => ?_, fun needed got h => ?_⟩
      · cases h
        rfl
      · cases h
  | kept e =>
      refine ⟨_, rfl, fun bytes h => ?_, fun needed got h => rfl⟩
      cases h
  | torn l after =>
      refine ⟨_, rfl, fun bytes h => ?_, fun needed got h => ?_⟩
      · cases h
      · cases h

namespace Segment

variable {x : Segment} {d : Disk} {offset : Nat} {part : Part} {buffer : Bytes}

def copyPart? (part : Part) (keyBytes rest : Bytes) (needed : Nat) (buffer : Bytes) : Option Bytes := do
  let front ← Bytes.fillSlice? 0 (partSize part 0) keyBytes buffer
  if needed ≤ partSize part 0 then return front
  else Bytes.fillSlice? (partSize part 0) needed rest front

def readBuffer? (x : Segment) (d : Disk) (offset : Nat) (part : Part) (buffer : Bytes) :
    Option (Except ArchiveError Nat × Bytes) :=
  match Bytes.split? Record.headerSize ((d.content x.slot).drop offset) with
  | none => do return (.error (.recordCorrupt (← Location.encode? x.index offset)), buffer)
  | some (header, rest) => do
    let length := (Record.ofHeader header).2
    -- Asked for without a footer, too, where nothing is compared with it: that can only trap more often.
    let size ← natural 64 (Record.headerSize + length)
    let stop ← natural 64 (offset + size)
    if x.footer.any fun f => f.dataSize.toNat < stop then
      return (.error (.recordCorrupt (← Location.encode? x.index offset)), buffer)
    else
      let needed ← natural 64 (partSize part length)
      if buffer.length < needed then return (.error (.bufferTooSmall needed buffer.length), buffer)
      else
        let filled ← copyPart? part (header.take 8) rest needed buffer
        if rest.length < needed - partSize part 0 then
          return (.error (.recordCorrupt (← Location.encode? x.index offset)), filled)
        else return (.ok needed, filled)

theorem corrupt_eq (hi : x.index.toNat < Location.maxSegments) (ho : offset < Location.maxOffset) :
    Location.encode? x.index offset = some (Location.pack x.index offset) ∧
      x.corrupt offset = .recordCorrupt (Location.pack x.index offset) := by
  have hencode := Location.encode?_eq hi ho
  exact ⟨hencode, by rw [corrupt, locationOf, hencode]⟩

theorem copyPart?_eq {keyBytes rest : Bytes} {length : Nat} (hkey : keyBytes.length = 8)
    (hroom : partSize part length ≤ buffer.length) :
    copyPart? part keyBytes rest (partSize part length) buffer =
      some (Bytes.overlay 0 (partBytes part keyBytes (rest.take length)) buffer) := by
  have hkeyRoom : partSize part 0 ≤ buffer.length := by
    cases part <;> simp only [partSize] at hroom ⊢ <;> omega
  have htake : keyBytes.take 8 = keyBytes := List.take_of_length_le (Nat.le_of_eq hkey)
  rw [copyPart?, Bytes.fillSlice?_eq_some (Nat.zero_le _) hkeyRoom, Option.bind_eq_bind,
    Option.bind_some]
  have hkept : (Bytes.overlay 0 (keyBytes.take (partSize part 0 - 0)) buffer).length = buffer.length := by
    apply Bytes.length_overlay_of_le
    rw [List.length_take]
    omega
  cases part with
  | key => simp [partSize, partBytes, htake]
  | data =>
      by_cases hnone : length = 0
      · simp [partSize, partBytes, hnone]
      · rw [if_neg (by simp [partSize]; omega), Bytes.fillSlice?_eq_some (by simp [partSize])
          (hkept ▸ hroom)]
        simp [partSize, partBytes, Bytes.overlay, Bytes.zeros]
  | both =>
      by_cases hnone : length = 0
      · simp [partSize, partBytes, hnone, htake]
      · rw [if_neg (by simp [partSize]; omega), Bytes.fillSlice?_eq_some (by simp [partSize])
          (hkept ▸ hroom)]
        simp [partSize, partBytes, htake, Bytes.overlay_append, hkey]

/-- A read of a location has an end, which is that of `read`. -/
theorem delivers_readBuffer? (hi : x.index.toNat < Location.maxSegments)
    (ho : offset < Location.maxOffset) :
    Delivers buffer (x.read d offset part buffer.length) (x.readBuffer? d offset part buffer) := by
  obtain ⟨hencode, hcorrupt⟩ := corrupt_eq hi ho
  rw [Location.maxOffset_eq] at ho
  rw [readBuffer?, hencode]
  cases hsplit : Bytes.split? Record.headerSize ((d.content x.slot).drop offset) with
  | none =>
      rw [read, hsplit, hcorrupt]
      exact .kept _
  | some front =>
      obtain ⟨header, rest⟩ := front
      have hlength := stated_lt header
      have hkey := length_keyBytes hsplit
      simp only [read_eq hsplit]
      generalize (Record.ofHeader header).2 = length at *
      have hneeded := partSize_le part length
      have hsize : Record.headerSize + length < 1 <<< 64 := by
        rw [Record.headerSize]
        omega
      have hstop : offset + (Record.headerSize + length) < 1 <<< 64 := by
        rw [Record.headerSize]
        omega
      rw [hcorrupt, natural_eq_some hsize, Option.bind_eq_bind, Option.bind_some,
        natural_eq_some hstop, Option.bind_some, natural_eq_some (n := partSize part length) (by omega),
        ← Nat.add_assoc]
      -- From here on both go through the same checks in turn.
      by_cases hbeyond : x.footer.any fun f => f.dataSize.toNat < offset + Record.headerSize + length
      · rw [if_pos hbeyond, if_pos hbeyond]
        exact .kept _
      rw [if_neg hbeyond, if_neg hbeyond, Option.bind_some]
      by_cases hsmall : buffer.length < partSize part length
      · rw [if_pos hsmall, if_pos hsmall]
        exact .kept _
      rw [if_neg hsmall, if_neg hsmall, copyPart?_eq hkey (Nat.not_lt.mp hsmall),
        Option.bind_eq_bind, Option.bind_some]
      by_cases htorn : rest.length < partSize part length - partSize part 0
      · rw [if_pos htorn, if_pos htorn]
        exact .torn _ _
      rw [if_neg htorn, if_neg htorn, ← (length_partBytes_iff hkey).mpr htorn]
      exact .ok _

end Segment

end MeteredStorage
