import MeteredStorage.Archive.Replay
import MeteredStorage.Archive.Session
import MeteredStorage.Proofs.Disk.Change
import MeteredStorage.Proofs.Segment.FooterPage
import MeteredStorage.Proofs.Segment.Location
import MeteredStorage.Proofs.Segment.Scan

namespace MeteredStorage

open BigEndian

theorem Segment.read_congr {s : Segment} {d d' : Disk} (h : d'.content s.slot = d.content s.slot)
    (offset : Nat) (part : Part) (room : Nat) :
    s.read d' offset part room = s.read d offset part room := by
  simp only [read, h]

theorem Segment.records_congr {s : Segment} {d d' : Disk} (hd : d'.directories = d.directories)
    (hc : ∀ slot, d.find s.path = .ok (some (.file slot)) → d'.content slot = d.content slot) :
    s.records d' = s.records d := by
  have harea (f : Footer) : s.dataArea d' f = s.dataArea d f := by
    unfold dataArea
    rw [Disk.find_congr hd]
    split
    · rfl
    · rfl
    · rfl
    · rename_i slot hf
      rw [hc slot hf]
  unfold records
  simp only [harea]

theorem Archive.visitSegments_congr {d d' : Disk} {segments : List Segment}
    (h : ∀ x ∈ segments, x.records d' = x.records d) :
    visitSegments d' segments = visitSegments d segments := by
  induction segments with
  | nil => rfl
  | cons x rest ih =>
      have hx := h x (List.mem_cons_self ..)
      simp only [visitSegments, visitSegment, hx, ih fun y hy => h y (List.mem_cons_of_mem _ hy)]

structure Volume where
  segment : Segment
  records : List Record

structure Entry where
  record : Record
  location : Int64
  deriving DecidableEq

namespace Entry

def latest (key : Int64) (es : List Entry) : Option Entry :=
  (es.filter (·.record.key == key)).getLast?

@[simp] theorem latest_nil (key : Int64) : latest key [] = none := rfl

theorem latest_append (key : Int64) (es fs : List Entry) :
    latest key (es ++ fs) = (latest key fs).or (latest key es) := by
  rw [latest, List.filter_append, List.getLast?_append]
  rfl

theorem latest_singleton (key : Int64) (e : Entry) :
    latest key [e] = if e.record.key = key then some e else none := by
  by_cases h : e.record.key = key
  · simp [latest, h]
  · simp [latest, h]

theorem latest_mem {key : Int64} {es : List Entry} {e : Entry} (h : latest key es = some e) :
    e ∈ es ∧ e.record.key = key := by
  have hm := List.mem_filter.mp (List.mem_of_getLast? h)
  exact ⟨hm.1, by simpa using hm.2⟩

theorem latest_eq_none {key : Int64} {es : List Entry} :
    latest key es = none ↔ ∀ e ∈ es, e.record.key ≠ key := by
  simp [latest]

/-- Where each key occurs once, every entry is the latest of its key. -/
theorem latest_of_nodup {es : List Entry} {e : Entry} (h : (es.map (·.record.key)).Nodup)
    (he : e ∈ es) : latest e.record.key es = some e := by
  induction es with
  | nil => cases he
  | cons f es ih =>
      obtain ⟨hf, hes⟩ := List.nodup_cons.mp h
      rw [← List.singleton_append, latest_append]
      rcases List.mem_cons.mp he with rfl | he
      · have hnone : latest e.record.key es = none :=
          latest_eq_none.mpr fun g hg hk => hf (List.mem_map.mpr ⟨g, hg, hk⟩)
        rw [hnone, latest_singleton, if_pos rfl, Option.none_or]
      · rw [ih hes he, Option.some_or]

/-- The last visit of a key is that of its latest entry. -/
theorem getLast?_visits (key : Int64) (es : List Entry) :
    ((es.map fun e => (e.record.key, e.location)).filter (·.1 == key)).getLast? =
      (latest key es).map fun e => (e.record.key, e.location) := by
  rw [List.filter_map, List.getLast?_map]
  rfl

theorem map_location_latest (key : Int64) (es : List Entry) :
    (latest key es).map Entry.location =
      ((es.map fun e => (e.record.key, e.location)).filter (·.1 == key)).getLast?.map Prod.snd := by
  rw [getLast?_visits, Option.map_map]
  rfl

def latestRecord (key : Int64) (rs : List Record) : Option Record :=
  (rs.filter (·.key == key)).getLast?

theorem latestRecord_append (key : Int64) (rs ss : List Record) :
    latestRecord key (rs ++ ss) = (latestRecord key ss).or (latestRecord key rs) := by
  rw [latestRecord, List.filter_append, List.getLast?_append]
  rfl

theorem map_latest (key : Int64) (es : List Entry) :
    (latest key es).map Entry.record = latestRecord key (es.map Entry.record) := by
  rw [latest, latestRecord, List.filter_map, List.getLast?_map]
  rfl

end Entry

namespace Volume

def dataSize (v : Volume) : Nat := Record.sizeAll v.records

def bytes (v : Volume) : Bytes :=
  Record.encodeAll v.records ++
    match v.segment.footer with
    | none => []
    | some f => Bytes.zeros (alignToPage v.dataSize - v.dataSize) ++ f.encode

def entries (v : Volume) : List Entry :=
  (Record.place 0 v.records).map fun p => ⟨p.record, Location.pack v.segment.index p.offset⟩

theorem mem_entries {v : Volume} {e : Entry} :
    e ∈ v.entries ↔
      ∃ p ∈ Record.place 0 v.records, e = ⟨p.record, Location.pack v.segment.index p.offset⟩ := by
  rw [entries, List.mem_map]
  exact ⟨fun ⟨p, hp, he⟩ => ⟨p, hp, he.symm⟩, fun ⟨p, hp, he⟩ => ⟨p, hp, he.symm⟩⟩

theorem map_entries (v : Volume) : v.entries.map Entry.record = v.records := by
  rw [entries, List.map_map]
  exact Record.map_place 0 v.records

/-- The footer describes the records. What a session writes is dated by its index. -/
structure Describes (f : Footer) (v : Volume) : Prop where
  index : f.index = v.segment.index
  items : f.items.toNat = v.records.length
  dataSize : f.dataSize.toNat = v.dataSize
  session : f.merged = false →
    f.mergedFrom = v.segment.index.toUInt64 ∧ f.generation = v.segment.index.toUInt64

/-- The volume lies on the disk under its path, with nothing but its own bytes in its file. -/
structure Stored (d : Disk) (v : Volume) : Prop where
  file : d.HasFile v.segment.path v.segment.slot
  slot_lt : v.segment.slot < d.contents.length
  content : d.content v.segment.slot = v.bytes
  index_lt : v.segment.index.toNat < Location.maxSegments
  size_le : v.dataSize ≤ Location.maxOffset
  fits : ∀ r ∈ v.records, r.Fits
  footer : ∀ f, v.segment.footer = some f → Describes f v

variable {d d' : Disk} {v : Volume} {p : PlacedRecord}

theorem Stored.frame {P : Nat → Prop} (hv : Stored d v) (h : Disk.Frame P d d')
    (hp : P v.segment.slot) : Stored d' v where
  file := hv.file.frame h hp
  slot_lt := Nat.lt_of_lt_of_le hv.slot_lt h.length
  content := by rw [h.content _ hp hv.slot_lt, hv.content]
  index_lt := hv.index_lt
  size_le := hv.size_le
  fits := hv.fits
  footer := hv.footer

theorem Stored.offset_lt (hv : Stored d v) (hp : p ∈ Record.place 0 v.records) :
    p.offset < Location.maxOffset := by
  have h := (Record.mem_place_bounds hp).2
  have := p.record.size_pos
  have := hv.size_le
  rw [dataSize] at this
  omega

theorem Stored.locationOf (hv : Stored d v) (hp : p ∈ Record.place 0 v.records) :
    v.segment.locationOf p.offset = .ok (Location.pack v.segment.index p.offset) := by
  rw [Segment.locationOf, Location.encode?_eq hv.index_lt (hv.offset_lt hp)]

theorem Stored.drop_content (hv : Stored d v) (hp : p ∈ Record.place 0 v.records) :
    ∃ rest, (d.content v.segment.slot).drop p.offset = p.record.encode ++ rest := by
  obtain ⟨before, after, hr, ho⟩ := Record.mem_place hp
  rw [Nat.zero_add] at ho
  rw [hv.content, bytes, hr, Record.encodeAll_append, List.append_assoc,
    List.drop_left' (by rw [Record.length_encodeAll, ho])]
  exact ⟨_, by rw [Record.encodeAll, List.flatMap_cons, List.append_assoc]⟩

theorem Stored.read_eq (hv : Stored d v) (hp : p ∈ Record.place 0 v.records) (part : Part)
    (room : Nat) :
    v.segment.read d p.offset part room =
      if room < Segment.partSize part p.record.data.length then
        .error (.bufferTooSmall (Segment.partSize part p.record.data.length) room)
      else .ok (Segment.partBytes part (ofInt64 p.record.key) p.record.data) := by
  obtain ⟨rest, hd⟩ := hv.drop_content hp
  have hfits : p.record.Fits := by
    obtain ⟨before, after, hr, -⟩ := Record.mem_place hp
    exact hv.fits _ (by rw [hr]; simp)
  have hinside : (v.segment.footer.any fun f =>
      decide (f.dataSize.toNat < p.offset + Record.headerSize + p.record.data.length)) = false := by
    cases hf : v.segment.footer with
    | none => rfl
    | some f =>
        have hs := (hv.footer f hf).dataSize
        have hb := (Record.mem_place_bounds hp).2
        rw [Record.size, dataSize] at *
        simp only [Option.any_some, decide_eq_false_iff_not]
        omega
  have hkey : (ofInt64 p.record.key ++ ofWord32 (UInt32.ofNat p.record.data.length)).take 8 =
      ofInt64 p.record.key := List.take_left' (length_ofInt64 _)
  unfold Segment.read
  rw [hd, Record.split_header]
  simp only [Record.ofHeader_header _ hfits, hinside, hkey, Bool.false_eq_true, if_false]
  split
  · rfl
  · cases part with
    | key => rfl
    | data => rw [if_neg (by decide), Record.split_data]
    | both => rw [if_neg (by decide), Record.split_data]

theorem Stored.read (hv : Stored d v) (hp : p ∈ Record.place 0 v.records) (part : Part) {room : Nat}
    (hroom : Segment.partSize part p.record.data.length ≤ room) :
    v.segment.read d p.offset part room =
      .ok (Segment.partBytes part (ofInt64 p.record.key) p.record.data) := by
  rw [hv.read_eq hp, if_neg (Nat.not_lt.mpr hroom)]

theorem Stored.records_run (hv : Stored d v) (hc : v.segment.isComplete) :
    v.segment.records d = (Record.place 0 v.records, .ok ()) := by
  obtain ⟨f, hf⟩ := Option.isSome_iff_exists.mp hc
  have hdesc := hv.footer f hf
  have harea : v.segment.dataArea d f = .ok (Record.encodeAll v.records) := by
    rw [Segment.dataArea, hv.file.find]
    simp only [hv.content, bytes, hdesc.dataSize, dataSize]
    rw [List.take_left' (Record.length_encodeAll _)]
  have hscan := Record.scan_encodeAll v.records hv.fits 0 []
  rw [List.append_nil] at hscan
  rw [Segment.records, hf]
  simp only [harea, hdesc.items, hscan]

theorem visits_place (s : Segment) (rs : List PlacedRecord)
    (h : ∀ p ∈ rs, s.locationOf p.offset = .ok (Location.pack s.index p.offset)) :
    Archive.visits s rs =
      (rs.map fun p => (p.record.key, Location.pack s.index p.offset), .ok ()) := by
  induction rs with
  | nil => rfl
  | cons p rs ih =>
      rw [Archive.visits, h p (List.mem_cons_self ..)]
      simp only [ih (fun q hq => h q (List.mem_cons_of_mem _ hq)), List.map_cons]

def visits (v : Volume) : List (Int64 × Int64) :=
  v.entries.map fun e => (e.record.key, e.location)

theorem Stored.visitSegment_run (hv : Stored d v) (hc : v.segment.isComplete) :
    Archive.visitSegment v.segment d = (v.visits, .ok ()) := by
  rw [Archive.visitSegment, hv.records_run hc]
  simp only [visits_place v.segment _ (fun p hp => hv.locationOf hp), visits, entries, List.map_map]
  rfl

end Volume

end MeteredStorage
