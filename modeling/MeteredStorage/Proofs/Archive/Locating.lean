import MeteredStorage.Proofs.Archive.Recency
import MeteredStorage.Proofs.Segment.Trapping

namespace MeteredStorage

namespace Archive

variable {a : Archive} {d : Disk} {location l : Int64} {part : Part} {room : Nat} {buffer bytes : Bytes}
  {index : UInt32} {x : Segment}

def readBuffer? (a : Archive) (d : Disk) (location : Int64) (part : Part) (buffer : Bytes) :
    Option (Except ArchiveError Nat × Bytes) := do
  match ← Location.segmentInWords? location with
  | none => return (.error (.invalidLocation location), buffer)
  | some index =>
    match a.segment? index with
    | none => return (.error (.segmentMissing index), buffer)
    | some x => x.readBuffer? d (Location.offset location) part buffer

theorem index_of_segment? (h : a.segment? index = some x) : x.index = index := by
  simpa using List.find?_some h

/-- A location is invalid, or its segment is missing, or what comes of the read is up to the segment. -/
theorem fetch_cases (a : Archive) (d : Disk) (location : Int64) (part : Part) (room : Nat) :
    (Location.segment? location = none ∧
        a.fetch d location part room = .error (.invalidLocation location)) ∨
      (∃ index, Location.segment? location = some index ∧ a.segment? index = none ∧
        a.fetch d location part room = .error (.segmentMissing index)) ∨
      ∃ index x, Location.segment? location = some index ∧ a.segment? index = some x ∧
        x.index.toNat < Location.maxSegments ∧
        x.corrupt (Location.offset location) = .recordCorrupt location ∧
        a.fetch d location part room = x.read d (Location.offset location) part room := by
  cases hl : Location.segment? location with
  | none => exact .inl ⟨rfl, by rw [fetch, hl]⟩
  | some index =>
      cases hx : a.segment? index with
      | none => exact .inr (.inl ⟨index, rfl, hx, fetch_of_missing hl hx part room⟩)
      | some x =>
          have hi := Location.lt_maxSegments_of_segment? hl
          have hindex := index_of_segment? hx
          rw [← hindex] at hi hl
          have hcorrupt := (Segment.corrupt_eq hi (Location.offset_lt location)).2
          rw [Location.pack_offset hl] at hcorrupt
          exact .inr (.inr ⟨index, x, rfl, hx, hi, hcorrupt,
            fetch_of_segment (hindex ▸ hl) hx part room⟩)

theorem delivers_readBuffer? (a : Archive) (d : Disk) (location : Int64) (part : Part) (buffer : Bytes) :
    Delivers buffer (a.fetch d location part buffer.length) (a.readBuffer? d location part buffer) := by
  rw [readBuffer?, Location.segmentInWords?_eq]
  rcases a.fetch_cases d location part buffer.length with
    ⟨hl, hf⟩ | ⟨index, hl, hx, hf⟩ | ⟨index, x, hl, hx, hi, -, hf⟩
  · rw [hf, hl]
    exact .kept _
  · simp only [hf, hl, hx, Option.bind_eq_bind, Option.bind_some]
    exact .kept _
  · simp only [hf, hl, hx, Option.bind_eq_bind, Option.bind_some]
    exact Segment.delivers_readBuffer? hi (Location.offset_lt location)

theorem fetch_eq_invalid_iff : a.fetch d location part room = .error (.invalidLocation l) ↔
    l = location ∧ location.toInt < Location.maxOffset := by
  have hnone := Location.segment?_eq_none_iff location
  rcases a.fetch_cases d location part room with
    ⟨hl, hf⟩ | ⟨index, hl, -, hf⟩ | ⟨index, x, hl, -, -, -, hf⟩
  · have hlow := hnone.mp hl
    rw [hf]
    constructor
    · rintro ⟨⟩
      exact ⟨rfl, by omega⟩
    · rintro ⟨rfl, -⟩
      rfl
  · rw [hf]
    refine ⟨nofun, fun h => ?_⟩
    rw [hnone.mpr (by omega)] at hl
    cases hl
  · rw [hf]
    refine ⟨fun h => (nomatch Segment.read_error h), fun h => ?_⟩
    rw [hnone.mpr (by omega)] at hl
    cases hl

theorem fetch_eq_missing_iff : a.fetch d location part room = .error (.segmentMissing index) ↔
    Location.segment? location = some index ∧ a.segment? index = none := by
  constructor
  · intro h
    rcases a.fetch_cases d location part room with
      ⟨-, hf⟩ | ⟨index', hl, hx, hf⟩ | ⟨index', x, -, -, -, -, hf⟩
    · rw [hf] at h
      cases h
    · rw [hf] at h
      cases h
      exact ⟨hl, hx⟩
    · rw [hf] at h
      nomatch Segment.read_error h
  · rintro ⟨hl, hx⟩
    exact fetch_of_missing hl hx part room

theorem fetch_eq_ok_iff : a.fetch d location part room = .ok bytes ↔
    ∃ index x, Location.segment? location = some index ∧ a.segment? index = some x ∧
      x.Serves d (Location.offset location) part room bytes := by
  constructor
  · intro h
    rcases a.fetch_cases d location part room with
      ⟨-, hf⟩ | ⟨index, -, -, hf⟩ | ⟨index, x, hl, hx, -, -, hf⟩
    · rw [hf] at h
      cases h
    · rw [hf] at h
      cases h
    · rw [hf] at h
      exact ⟨index, x, hl, hx, Segment.read_eq_ok_iff.mp h⟩
  · rintro ⟨index, x, hl, hx, h⟩
    rw [fetch_of_segment hl hx]
    exact Segment.read_eq_ok_iff.mpr h

theorem fetch_error_small {needed got : Nat}
    (h : a.fetch d location part room = .error (.bufferTooSmall needed got)) :
    got = room ∧ room < needed ∧ ∃ index x, Location.segment? location = some index ∧
      a.segment? index = some x ∧
      needed = Segment.partSize part (x.statedLength d (Location.offset location)) := by
  rcases a.fetch_cases d location part room with
    ⟨-, hf⟩ | ⟨index, -, -, hf⟩ | ⟨index, x, hl, hx, -, -, hf⟩
  · rw [hf] at h
    cases h
  · rw [hf] at h
    cases h
  · rw [hf] at h
    obtain ⟨-, -, hneeded, hgot, hroom⟩ := Segment.read_eq_small_iff.mp h
    exact ⟨hgot, hroom, index, x, hl, hx, hneeded⟩

theorem fetch_error_corrupt {e : ArchiveError} (h : a.fetch d location part room = .error e) :
    e ≠ .outOfRange ∧ ∀ l, e = .recordCorrupt l → l = location := by
  rcases a.fetch_cases d location part room with
    ⟨-, hf⟩ | ⟨index, -, -, hf⟩ | ⟨index, x, -, -, -, hcorrupt, hf⟩
  · rw [hf] at h
    cases h
    exact ⟨nofun, nofun⟩
  · rw [hf] at h
    cases h
    exact ⟨nofun, nofun⟩
  · rw [hf] at h
    rcases Segment.read_error_cases h with rfl | ⟨needed, rfl⟩
    · rw [hcorrupt]
      refine ⟨nofun, ?_⟩
      rintro l ⟨⟩
      rfl
    · exact ⟨nofun, nofun⟩

theorem readInto_eq (s : Hosted Archive) (location : Int64) (part : Part) (buffer : Bytes) :
    (readInto location part buffer s).1 =
      (s.self.fetch s.host.disk location part buffer.length).map fun bytes =>
        (bytes.length, Bytes.overlay 0 bytes buffer) := by
  cases hf : s.self.fetch s.host.disk location part buffer.length with
  | error e => simp [readInto, hf, Except.map]
  | ok bytes => exact readInto_run hf

/-- What is read of key and data together is what is read of each of them. -/
theorem fetch_both (h : a.fetch d location .both room = .ok bytes) :
    ∃ key data, bytes = key ++ data ∧
      (∀ room', key.length ≤ room' → a.fetch d location .key room' = .ok key) ∧
      ∀ room', data.length ≤ room' → a.fetch d location .data room' = .ok data := by
  obtain ⟨index, x, hl, hx, hserves⟩ := fetch_eq_ok_iff.mp h
  obtain ⟨hbytes, hkey, hdata⟩ := hserves.parts
  exact ⟨_, _, hbytes, fun _ hroom => fetch_eq_ok_iff.mpr ⟨index, x, hl, hx, hkey.mono hroom⟩,
    fun _ hroom => fetch_eq_ok_iff.mpr ⟨index, x, hl, hx, hdata.mono hroom⟩⟩

/--
A read of any number as a location, in any state of the archive and its files, ends without a trap, in
words as in the integers. It is refused as invalid exactly below the first location, and for a missing
segment exactly if none of the index is registered. What is read lies in the data area of a completed
segment, the buffer is too small only for what was asked for and is then left as it was, and key and
data together are what each of them is alone.
-/
theorem readInto_anywhere (s : Hosted Archive) (location : Int64) (part : Part) (buffer : Bytes) :
    ∃ reply after, s.self.readBuffer? s.host.disk location part buffer = some (reply, after) ∧
      (readInto location part buffer s).1 = (reply.map fun n => (n, after)) ∧
      reply ≠ .error .outOfRange ∧ (∀ l, reply = .error (.recordCorrupt l) → l = location) ∧
      (∀ l, reply = .error (.invalidLocation l) ↔ l = location ∧ location.toInt < Location.maxOffset) ∧
      (∀ index, reply = .error (.segmentMissing index) ↔
        Location.segment? location = some index ∧ s.self.segment? index = none) ∧
      (∀ n, reply = .ok n → ∃ index x bytes, Location.segment? location = some index ∧
        s.self.segment? index = some x ∧
        x.Serves s.host.disk (Location.offset location) part buffer.length bytes ∧
        n = bytes.length ∧ after = Bytes.overlay 0 bytes buffer) ∧
      (∀ needed got, reply = .error (.bufferTooSmall needed got) →
        after = buffer ∧ got = buffer.length ∧ buffer.length < needed ∧
        ∃ index x, Location.segment? location = some index ∧ s.self.segment? index = some x ∧
          needed = Segment.partSize part (x.statedLength s.host.disk (Location.offset location))) ∧
      (part = .both → ∀ n, reply = .ok n → ∃ key data, n = (key ++ data).length ∧
        after = Bytes.overlay 0 (key ++ data) buffer ∧
        ∀ other : Bytes,
          (key.length ≤ other.length →
            (readInto location .key other s).1 = .ok (key.length, Bytes.overlay 0 key other)) ∧
          (data.length ≤ other.length →
            (readInto location .data other s).1 = .ok (data.length, Bytes.overlay 0 data other))) := by
  obtain ⟨after, hwords, hfilled, hkept⟩ :=
    (s.self.delivers_readBuffer? s.host.disk location part buffer).left
  have herror : ∀ e : ArchiveError,
      (s.self.fetch s.host.disk location part buffer.length).map List.length = .error e ↔
        s.self.fetch s.host.disk location part buffer.length = .error e := fun e => by
    cases s.self.fetch s.host.disk location part buffer.length <;> simp [Except.map]
  have hok : ∀ n, (s.self.fetch s.host.disk location part buffer.length).map List.length = .ok n →
      ∃ bytes, s.self.fetch s.host.disk location part buffer.length = .ok bytes ∧ n = bytes.length ∧
        after = Bytes.overlay 0 bytes buffer := fun n h => by
    cases hf : s.self.fetch s.host.disk location part buffer.length with
    | error e =>
        rw [hf] at h
        cases h
    | ok bytes =>
        rw [hf] at h
        cases h
        exact ⟨bytes, rfl, rfl, hfilled bytes hf⟩
  refine ⟨_, after, hwords, ?_, fun h => ?_, fun l h => ?_, fun l => ?_, fun index => ?_,
    fun n h => ?_, fun needed got h => ?_, fun hboth n h => ?_⟩
  · rw [readInto_eq]
    cases hf : s.self.fetch s.host.disk location part buffer.length with
    | error e => rfl
    | ok bytes => rw [hfilled bytes hf]; rfl
  · exact (fetch_error_corrupt ((herror _).mp h)).1 rfl
  · exact (fetch_error_corrupt ((herror _).mp h)).2 l rfl
  · rw [herror, fetch_eq_invalid_iff]
  · rw [herror, fetch_eq_missing_iff]
  · obtain ⟨bytes, hf, hn, hafter⟩ := hok n h
    obtain ⟨index, x, hl, hx, hserves⟩ := fetch_eq_ok_iff.mp hf
    exact ⟨index, x, bytes, hl, hx, hserves, hn, hafter⟩
  · obtain ⟨hgot, hroom, hneeded⟩ := fetch_error_small ((herror _).mp h)
    exact ⟨hkept needed got ((herror _).mp h), hgot, hroom, hneeded⟩
  · subst hboth
    obtain ⟨bytes, hf, hn, hafter⟩ := hok n h
    obtain ⟨key, data, rfl, hkey, hdata⟩ := fetch_both hf
    exact ⟨key, data, hn, hafter, fun other =>
      ⟨fun hroom => readInto_run (hkey _ hroom), fun hroom => readInto_run (hdata _ hroom)⟩⟩

/--
After a session that wrote one record: its location is read in full, and nothing is read three bytes
off it, where the bytes state a length that the data area does not hold.
-/
theorem readInto_anywhere_misaligned :
    ∃ s : Hosted Archive, ∃ l m : Int64, scenario "x" [.start, .store ⟨7, [1]⟩, .finish 0 10] = some s ∧
      l.toInt = Location.maxOffset ∧ m.toInt = Location.maxOffset + 3 ∧
      (∃ index x bytes, Location.segment? l = some index ∧ s.self.segment? index = some x ∧
        x.isComplete ∧ x.Serves s.host.disk (Location.offset l) .both 9 bytes ∧ bytes.length = 9) ∧
      ∃ reply after, s.self.readBuffer? s.host.disk m .key (List.replicate 8 0) = some (reply, after) ∧
        ∀ n, reply ≠ .ok n := by
  let l : Int64 := 0x10000000000
  let m : Int64 := 0x10000000003
  have hcheck : (scenario "x" [.start, .store ⟨7, [1]⟩, .finish 0 10]).any fun s =>
      s.self.segments.all Segment.isComplete &&
        (s.self.readBuffer? s.host.disk l .both (List.replicate 9 0)).any (·.1.toOption == some 9) &&
        (s.self.readBuffer? s.host.disk m .key (List.replicate 8 0)).any (·.1.toOption.isNone) := by
    decide +kernel
  obtain ⟨s, hs, hgo⟩ := (Option.any_eq_true ..).mp hcheck
  simp only [Bool.and_eq_true] at hgo
  obtain ⟨⟨hcomplete, hread⟩, hoff⟩ := hgo
  obtain ⟨reply, after, hwords, -, -, -, -, -, hok, -, -⟩ :=
    readInto_anywhere s l .both (List.replicate 9 0)
  obtain ⟨reply', after', hwords', -⟩ := readInto_anywhere s m .key (List.replicate 8 0)
  refine ⟨s, l, m, hs, by decide, by decide, ?_, reply', after', hwords', ?_⟩
  · rw [hwords] at hread
    obtain ⟨n, rfl⟩ : ∃ n, reply = .ok n := by
      cases reply with
      | error e => cases hread
      | ok n => exact ⟨n, rfl⟩
    obtain ⟨index, x, bytes, hl, hx, hserves, hn, -⟩ := hok n rfl
    have hall := List.all_eq_true.mp hcomplete x (List.mem_of_find?_eq_some hx)
    have hnine : n = 9 := Option.some.inj (eq_of_beq hread)
    exact ⟨index, x, bytes, hl, hx, hall, hserves, hn.symm.trans hnine⟩
  · rintro n rfl
    rw [hwords'] at hoff
    cases hoff

end Archive

end MeteredStorage
