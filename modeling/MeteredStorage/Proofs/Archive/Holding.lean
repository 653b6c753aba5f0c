import MeteredStorage.Archive.Merge
import MeteredStorage.Archive.Opening
import MeteredStorage.Proofs.Archive.Order
import MeteredStorage.Proofs.Archive.Volume

namespace MeteredStorage

namespace Volume

structure Apart (u v : Volume) : Prop where
  index : u.segment.index ≠ v.segment.index
  slot : u.segment.slot ≠ v.segment.slot
  handle : u.segment.handle ≠ v.segment.handle

theorem Apart.symm {u v : Volume} (h : Apart u v) : Apart v u :=
  ⟨h.index.symm, h.slot.symm, h.handle.symm⟩

def push (v : Volume) (r : Record) : Volume := { v with records := v.records ++ [r] }

def finished (v : Volume) (f : Footer) : Volume :=
  { v with segment := { v.segment with footer := some f } }

theorem entries_push (v : Volume) (r : Record) :
    (v.push r).entries = v.entries ++ [⟨r, Location.pack v.segment.index v.dataSize⟩] := by
  simp [entries, push, Record.place_append, Record.place, dataSize]

theorem dataSize_push (v : Volume) (r : Record) : (v.push r).dataSize = v.dataSize + r.size := by
  simp [dataSize, push, Record.sizeAll_append, Record.sizeAll]

theorem entries_finished (v : Volume) (f : Footer) : (v.finished f).entries = v.entries := rfl

/-- A record is written behind the others. -/
theorem Stored.push {d : Disk} {v : Volume} (h : v.Stored d) (hopen : v.segment.footer = none)
    {r : Record} (hfits : r.Fits) (hsize : v.dataSize + r.size ≤ Location.maxOffset) :
    (v.push r).Stored (d.changed (.write v.segment.slot v.dataSize r.encode)) := by
  have hframe := Disk.changed_write d v.segment.slot v.dataSize r.encode
  have hbytes : v.bytes = Record.encodeAll v.records := by simp [bytes, hopen]
  exact {
    file := h.file.mono hframe.keeps fun _ hn => hn
    slot_lt := Nat.lt_of_lt_of_le h.slot_lt hframe.length
    content := by
      have hlen : v.dataSize = (Record.encodeAll v.records).length :=
        (Record.length_encodeAll _).symm
      rw [Volume.push, Disk.content_write h.slot_lt, h.content, hbytes, hlen, Bytes.overlay_length]
      simp [bytes, hopen, Record.encodeAll]
    index_lt := h.index_lt
    size_le := by rw [dataSize_push]; exact hsize
    fits := by
      intro s hs
      rcases List.mem_append.mp hs with hs | hs
      · exact h.fits s hs
      · rw [List.mem_singleton.mp hs]
        exact hfits
    footer := by simp [Volume.push, hopen] }

/-- Padding and a footer are written behind the records. -/
theorem Stored.finish {d : Disk} {v : Volume} (h : v.Stored d) (hopen : v.segment.footer = none)
    {f : Footer} (hf : Describes f v) :
    (v.finished f).Stored
      (d.changed (.finish v.segment.slot (alignToPage f.dataSize.toNat) f.encode)) := by
  have hframe := Disk.changed_finish d v.segment.slot (alignToPage f.dataSize.toNat) f.encode
  have hbytes : v.bytes = Record.encodeAll v.records := by simp [bytes, hopen]
  have hresize : Bytes.resize (alignToPage v.dataSize) (Record.encodeAll v.records) =
      Record.encodeAll v.records ++ Bytes.zeros (alignToPage v.dataSize - v.dataSize) := by
    rw [Bytes.resize, Record.length_encodeAll, List.take_of_length_le]
    · rfl
    · rw [Record.length_encodeAll]
      exact alignToPage_le _
  exact {
    file := h.file.mono hframe.keeps fun _ hn => hn
    slot_lt := Nat.lt_of_lt_of_le h.slot_lt hframe.length
    content := by
      rw [finished, Disk.content_finish h.slot_lt, h.content, hbytes, hf.dataSize, hresize,
        List.append_assoc]
      rfl
    index_lt := h.index_lt
    size_le := h.size_le
    fits := h.fits
    footer := by
      intro g hg
      cases hg
      exact ⟨hf.index, hf.items, hf.dataSize, hf.session⟩ }

end Volume

namespace Archive

/-- The archive `a` on the disk `d` has exactly the volumes `vs`, in some order. -/
structure Holds (a : Archive) (d : Disk) (vs : List Volume) : Prop where
  sound : d.Sound
  home : ∃ n, d.find a.directory = .ok (some (.directory n))
  segments : a.segments.Perm (vs.map Volume.segment)
  stored : ∀ v ∈ vs, v.Stored d
  apart : vs.Pairwise Volume.Apart
  handle_lt : ∀ v ∈ vs, v.segment.handle < d.opened
  index_lt : ∀ v ∈ vs, v.segment.index.toNat < a.nextIndex.toNat
  path : ∀ v ∈ vs, v.segment.path = a.pathOf v.segment.index

variable {a : Archive} {d d' : Disk} {v : Volume} {vs ws : List Volume}

theorem Holds.perm (h : Holds a d vs) (hp : vs.Perm ws) : Holds a d ws where
  sound := h.sound
  home := h.home
  segments := h.segments.trans (hp.map _)
  stored v hv := h.stored v (hp.mem_iff.mpr hv)
  apart := (hp.pairwise_iff fun h => h.symm).mp h.apart
  handle_lt v hv := h.handle_lt v (hp.mem_iff.mpr hv)
  index_lt v hv := h.index_lt v (hp.mem_iff.mpr hv)
  path v hv := h.path v (hp.mem_iff.mpr hv)

theorem Holds.eq_of_index (h : Holds a d vs) {u : Volume} (hu : u ∈ vs) (hv : v ∈ vs)
    (hi : u.segment.index = v.segment.index) : u = v := by
  rcases cases_of_pairwise h.apart hu hv with he | ha | ha
  · exact he
  · exact absurd hi ha.index
  · exact absurd hi.symm ha.index

theorem Holds.mem_segments (h : Holds a d vs) {s : Segment} :
    s ∈ a.segments ↔ ∃ v ∈ vs, v.segment = s := by
  rw [h.segments.mem_iff, List.mem_map]

theorem Holds.segment?_eq (h : Holds a d vs) (hv : v ∈ vs) :
    a.segment? v.segment.index = some v.segment := by
  rw [segment?]
  cases hf : a.segments.find? (·.index == v.segment.index) with
  | none =>
      have hn := List.find?_eq_none.mp hf v.segment (h.mem_segments.mpr ⟨v, hv, rfl⟩)
      simp at hn
  | some s =>
      obtain ⟨u, hu, rfl⟩ := h.mem_segments.mp (List.mem_of_find?_eq_some hf)
      have hi : u.segment.index = v.segment.index := by simpa using List.find?_some hf
      rw [h.eq_of_index hu hv hi]

theorem Holds.segment?_eq_none (h : Holds a d vs) {index : UInt32}
    (hn : ∀ v ∈ vs, v.segment.index ≠ index) : a.segment? index = none := by
  rw [segment?, List.find?_eq_none]
  intro s hs
  obtain ⟨v, hv, rfl⟩ := h.mem_segments.mp hs
  simpa using hn v hv

theorem fetch_of_segment {location : Int64} {index : UInt32} {s : Segment}
    (hl : Location.segment? location = some index) (hs : a.segment? index = some s) (part : Part)
    (room : Nat) :
    a.fetch d location part room = s.read d (Location.offset location) part room := by
  simp only [Archive.fetch, hl, hs]

theorem fetch_of_missing {location : Int64} {index : UInt32}
    (hl : Location.segment? location = some index) (hs : a.segment? index = none) (part : Part)
    (room : Nat) : a.fetch d location part room = .error (.segmentMissing index) := by
  simp only [Archive.fetch, hl, hs]

theorem Holds.fetch_eq (h : Holds a d vs) (hv : v ∈ vs) {e : Entry} (he : e ∈ v.entries) (part : Part)
    (room : Nat) :
    a.fetch d e.location part room =
      if room < Segment.partSize part e.record.data.length then
        .error (.bufferTooSmall (Segment.partSize part e.record.data.length) room)
      else .ok (Segment.partBytes part (BigEndian.ofInt64 e.record.key) e.record.data) := by
  obtain ⟨p, hp, rfl⟩ := Volume.mem_entries.mp he
  have hs := h.stored v hv
  rw [fetch_of_segment (Location.segment?_pack hs.index_lt (hs.offset_lt hp)) (h.segment?_eq hv),
    Location.offset_pack hs.index_lt (hs.offset_lt hp)]
  exact hs.read_eq hp part room

theorem Holds.fetch (h : Holds a d vs) (hv : v ∈ vs) {e : Entry} (he : e ∈ v.entries) (part : Part)
    {room : Nat} (hroom : Segment.partSize part e.record.data.length ≤ room) :
    a.fetch d e.location part room =
      .ok (Segment.partBytes part (BigEndian.ofInt64 e.record.key) e.record.data) := by
  rw [h.fetch_eq hv he, if_neg (Nat.not_lt.mpr hroom)]

theorem without_of_absent {segments : List Segment} {index : UInt32}
    (h : ∀ s ∈ segments, s.index ≠ index) : without segments index = segments := by
  rw [without, List.filter_eq_self]
  intro s hs
  simpa using h s hs

theorem mem_completed {x : Segment} : x ∈ a.completed ↔ x ∈ a.segments ∧ x.isComplete := by
  rw [completed, (Segment.sortByAge_perm _).mem_iff, List.mem_filter]

theorem takeWithin_prefix (limit : Nat) (ss : List Segment) (total : Nat) :
    takeWithin limit total ss <+: ss := by
  induction ss generalizing total with
  | nil => exact List.nil_prefix
  | cons s ss ih =>
      unfold takeWithin
      dsimp only
      split
      · exact List.cons_prefix_cons.mpr ⟨rfl, ih _⟩
      · exact List.nil_prefix

theorem mem_enter {segments : List Segment} {s x : Segment} (h : x ∈ enter segments s) :
    x = s ∨ x ∈ segments := by
  have hx := (Segment.insertBy_perm _ s _).mem_iff.mp h
  exact (List.mem_cons.mp hx).imp_right fun hm => (List.mem_filter.mp hm).1

theorem enter_perm {segments : List Segment} {s : Segment} (h : ∀ t ∈ segments, t.index ≠ s.index) :
    (enter segments s).Perm (s :: segments) := by
  rw [enter, without_of_absent h]
  exact Segment.insertBy_perm _ s segments

@[simp] theorem count_run (f : ArchiveCounts → ArchiveCounts) (s : Hosted Archive) :
    count f s = (.ok (), { s with self := { s.self with counts := f s.self.counts } }) := rfl

def entered (a : Archive) (s : Segment) : Archive :=
  { a with
    segments := enter a.segments s
    nextIndex := a.nextIndex + 1
    counts := { a.counts with segments := a.counts.segments + 1 } }

/-- An empty segment cannot be created, or it comes into an empty file of its own. -/
theorem createSegment_cases (s : Hosted Archive) :
    (∃ e s', createSegment s = (.error e, s') ∧
      s'.self = { s.self with nextIndex := s.self.nextIndex + 1 } ∧ s'.host.disk = s.host.disk ∧
      (e = .indicesExhausted ↔ Location.maxSegments ≤ s.self.nextIndex.toNat)) ∨
    ∃ trail name s',
      s.self.nextIndex.toNat < Location.maxSegments ∧
      s.host.disk.target (s.self.pathOf s.self.nextIndex) = .ok (.name trail name false) ∧
      s.host.disk.meaning trail name = .ok none ∧
      createSegment s = (.ok ⟨s.self.nextIndex, s.self.pathOf s.self.nextIndex,
        s.host.disk.contents.length, s.host.disk.opened, none⟩, s') ∧
      s'.self = s.self.entered ⟨s.self.nextIndex, s.self.pathOf s.self.nextIndex,
        s.host.disk.contents.length, s.host.disk.opened, none⟩ ∧
      s'.host.disk = s.host.disk.created (Trail.place trail name) := by
  by_cases hmax : Location.maxSegments ≤ s.self.nextIndex.toNat
  · have hrun : createSegment s = (.error .indicesExhausted,
        { s with self := { s.self with nextIndex := s.self.nextIndex + 1 } }) := by
      simp [createSegment, hmax]
    exact .inl ⟨_, _, hrun, rfl, rfl, iff_of_true rfl hmax⟩
  · rcases Disk.createFile_cases (s.self.pathOf s.self.nextIndex) s.host.disk with
      ⟨e, he⟩ | ⟨trail, name, ht, hm, hc⟩
    · have hrun : createSegment s = (.error (.disk e),
          { s with self := { s.self with nextIndex := s.self.nextIndex + 1 } }) := by
        simp [createSegment, hmax, he, Hosted.withDisk]
      exact .inl ⟨_, _, hrun, rfl, rfl, iff_of_false (by simp) hmax⟩
    · refine .inr ⟨trail, name, ⟨s.self.entered ⟨s.self.nextIndex, s.self.pathOf s.self.nextIndex,
        s.host.disk.contents.length, s.host.disk.opened, none⟩, { s.host with
          disk := s.host.disk.created (Trail.place trail name) }⟩,
        Nat.lt_of_not_le hmax, ht, hm, ?_, rfl, rfl⟩
      simp [createSegment, hmax, hc, Hosted.withDisk, entered]

/-- A file can only be made at a path that leads to none. -/
theorem Holds.index_ne (h : Holds a d vs) {i : UInt32} {trail : Trail} {name : String}
    (ht : d.target (a.pathOf i) = .ok (.name trail name false))
    (hm : d.meaning trail name = .ok none) (hv : v ∈ vs) : v.segment.index ≠ i := by
  rintro rfl
  obtain ⟨trail', name', ht', hm'⟩ := (h.stored v hv).file
  rw [h.path v hv, ht] at ht'
  cases ht'
  rw [hm] at hm'
  cases hm'

theorem Holds.enters {a' : Archive} {i : UInt32} (h : Holds a d vs) {trail : Trail} {name : String}
    (ht : d.target (a.pathOf i) = .ok (.name trail name false))
    (hm : d.meaning trail name = .ok none) (hmax : i.toNat < Location.maxSegments)
    (hdir : a'.directory = a.directory) (hname : a'.name = a.name)
    (hseg : a'.segments = enter a.segments ⟨i, a.pathOf i, d.contents.length, d.opened, none⟩)
    (hi : i.toNat < a'.nextIndex.toNat)
    (hnext : ∀ v ∈ vs, v.segment.index.toNat < a'.nextIndex.toNat) :
    Holds a' (d.created (Trail.place trail name))
      (⟨⟨i, a.pathOf i, d.contents.length, d.opened, none⟩, []⟩ :: vs) := by
  obtain ⟨hsize, hnone⟩ := Disk.meaning_eq_ok hm
  have hplace : (Trail.place trail name).directory < d.directories.size := h.sound.target_lt ht
  have hframe := Disk.frame_created hplace hnone
  have hpath (j : UInt32) : a'.pathOf j = a.pathOf j := by rw [pathOf, pathOf, hdir, hname]
  refine ⟨h.sound.frame hframe, ?_, ?_, ?_, ?_, ?_, ?_, ?_⟩
  · obtain ⟨n, hn⟩ := h.home
    exact ⟨n, hdir ▸ Disk.find_directory_mono hframe.keeps hn⟩
  · rw [hseg]
    refine (enter_perm fun s hs => ?_).trans (h.segments.cons _)
    obtain ⟨v, hv, rfl⟩ := h.mem_segments.mp hs
    exact h.index_ne ht hm hv
  · intro v hv
    rcases List.mem_cons.mp hv with rfl | hv
    · exact {
        file := ⟨trail, name, Disk.target_mono hframe.keeps ht, by
          rw [Disk.meaning_of_node hsize, Disk.node?_created hplace hnone, if_pos rfl]⟩
        slot_lt := by rw [Disk.length_created]; exact Nat.lt_succ_self _
        content := Disk.content_created ..
        index_lt := hmax
        size_le := Nat.zero_le _
        fits := by simp
        footer := by simp }
    · exact (h.stored v hv).frame hframe trivial
  · refine List.Pairwise.cons (fun v hv => ⟨(h.index_ne ht hm hv).symm, fun hs => ?_, fun hh => ?_⟩)
      h.apart
    · exact Nat.ne_of_gt (h.stored v hv).slot_lt hs
    · exact Nat.ne_of_gt (h.handle_lt v hv) hh
  · intro v hv
    rcases List.mem_cons.mp hv with rfl | hv
    · exact Nat.lt_succ_self _
    · exact Nat.lt_succ_of_lt (h.handle_lt v hv)
  · intro v hv
    rcases List.mem_cons.mp hv with rfl | hv
    · exact hi
    · exact hnext v hv
  · intro v hv
    rw [hpath]
    rcases List.mem_cons.mp hv with rfl | hv
    · rfl
    · exact h.path v hv

theorem Holds.entered (h : Holds a d vs) {trail : Trail} {name : String}
    (hmax : a.nextIndex.toNat < Location.maxSegments)
    (ht : d.target (a.pathOf a.nextIndex) = .ok (.name trail name false))
    (hm : d.meaning trail name = .ok none) :
    Holds (a.entered ⟨a.nextIndex, a.pathOf a.nextIndex, d.contents.length, d.opened, none⟩)
      (d.created (Trail.place trail name))
      (⟨⟨a.nextIndex, a.pathOf a.nextIndex, d.contents.length, d.opened, none⟩, []⟩ :: vs) := by
  have hnext : (a.nextIndex + 1).toNat = a.nextIndex.toNat + 1 := by
    rw [Location.maxSegments_eq] at hmax
    rw [UInt32.toNat_add]
    exact Nat.mod_eq_of_lt (by simp only [UInt32.toNat_one]; omega)
  refine h.enters ht hm hmax rfl rfl rfl ?_ fun v hv => ?_
  · exact Nat.lt_of_lt_of_eq (Nat.lt_succ_self _) hnext.symm
  · exact Nat.lt_of_lt_of_eq (Nat.lt_succ_of_lt (h.index_lt v hv)) hnext.symm

theorem Holds.skipped (h : Holds a d vs) (hnext : a.nextIndex.toNat + 1 < 0x100000000) :
    Holds { a with nextIndex := a.nextIndex + 1 } d vs where
  sound := h.sound
  home := h.home
  segments := h.segments
  stored := h.stored
  apart := h.apart
  handle_lt := h.handle_lt
  index_lt v hv := by
    have hn : (a.nextIndex + 1).toNat = a.nextIndex.toNat + 1 := by
      rw [UInt32.toNat_add]
      exact Nat.mod_eq_of_lt hnext
    change v.segment.index.toNat < (a.nextIndex + 1).toNat
    rw [hn]
    exact Nat.lt_succ_of_lt (h.index_lt v hv)
  path := h.path

theorem Holds.stored_tail (h : Holds a d (v :: vs)) (hf : Disk.Frame (· ≠ v.segment.slot) d d') :
    ∀ u ∈ vs, u.Stored d' := fun u hu =>
  (h.stored u (List.mem_cons_of_mem _ hu)).frame hf
    ((List.pairwise_cons.mp h.apart).1 u hu).slot.symm

theorem Holds.home_mono (h : Holds a d vs) {P : Nat → Prop} (hf : Disk.Frame P d d') :
    ∃ n, d'.find a.directory = .ok (some (.directory n)) := by
  obtain ⟨n, hn⟩ := h.home
  exact ⟨n, Disk.find_directory_mono hf.keeps hn⟩

theorem Holds.replace {a' : Archive} {v' : Volume} (h : Holds a d (v :: vs))
    (hf : Disk.Frame (· ≠ v.segment.slot) d d') (hdir : a'.directory = a.directory)
    (hname : a'.name = a.name) (hnext : a'.nextIndex = a.nextIndex)
    (hseg : a'.segments.Perm (v'.segment :: vs.map Volume.segment)) (hs : v'.Stored d')
    (hi : v'.segment.index = v.segment.index) (hp : v'.segment.path = v.segment.path)
    (hslot : v'.segment.slot = v.segment.slot) (hh : v'.segment.handle = v.segment.handle) :
    Holds a' d' (v' :: vs) := by
  have hpath (i : UInt32) : a'.pathOf i = a.pathOf i := by rw [pathOf, pathOf, hdir, hname]
  obtain ⟨hapart, hrest⟩ := List.pairwise_cons.mp h.apart
  have hv := List.mem_cons_self (a := v) (l := vs)
  refine ⟨h.sound.frame hf, hdir ▸ h.home_mono hf, hseg, ?_, ?_, ?_, ?_, ?_⟩
  · intro u hu
    rcases List.mem_cons.mp hu with rfl | hu
    · exact hs
    · exact h.stored_tail hf u hu
  · refine List.Pairwise.cons (fun u hu => ?_) hrest
    have ha := hapart u hu
    exact ⟨hi ▸ ha.index, hslot ▸ ha.slot, hh ▸ ha.handle⟩
  · intro u hu
    refine Nat.lt_of_lt_of_le ?_ hf.opened
    rcases List.mem_cons.mp hu with rfl | hu
    · exact hh ▸ h.handle_lt v hv
    · exact h.handle_lt u (List.mem_cons_of_mem _ hu)
  · intro u hu
    rw [hnext]
    rcases List.mem_cons.mp hu with rfl | hu
    · exact hi ▸ h.index_lt v hv
    · exact h.index_lt u (List.mem_cons_of_mem _ hu)
  · intro u hu
    rw [hpath]
    rcases List.mem_cons.mp hu with rfl | hu
    · rw [hp, hi, h.path v hv]
    · exact h.path u (List.mem_cons_of_mem _ hu)

theorem Holds.append (h : Holds a d (v :: vs)) (hopen : v.segment.footer = none) {r : Record}
    (hfits : r.Fits) (hsize : v.dataSize + r.size ≤ Location.maxOffset) :
    Holds a (d.changed (.write v.segment.slot v.dataSize r.encode)) (v.push r :: vs) :=
  h.replace (Disk.changed_write ..) rfl rfl rfl h.segments
    ((h.stored v (List.mem_cons_self ..)).push hopen hfits hsize) rfl rfl rfl rfl

def finished (a : Archive) (s : Segment) (f : Footer) : Archive :=
  { a with
    segments := a.segments.map fun t => if t.handle = s.handle then { t with footer := some f } else t }

theorem Holds.finished (h : Holds a d (v :: vs)) (hopen : v.segment.footer = none) {f : Footer}
    (hf : Volume.Describes f v) :
    Holds (a.finished v.segment f)
      (d.changed (.finish v.segment.slot (alignToPage f.dataSize.toNat) f.encode))
      (v.finished f :: vs) := by
  have hframe := Disk.changed_finish d v.segment.slot (alignToPage f.dataSize.toNat) f.encode
  refine h.replace hframe rfl rfl rfl ?_
    ((h.stored v (List.mem_cons_self ..)).finish hopen hf) rfl rfl rfl rfl
  refine (h.segments.map _).trans (List.Perm.of_eq ?_)
  rw [List.map_cons, List.map_cons, if_pos rfl]
  refine congrArg _ ?_
  rw [List.map_map]
  refine List.map_congr_left fun u hu => ?_
  exact if_neg ((List.pairwise_cons.mp h.apart).1 u hu).handle.symm

theorem syncDirectory_of_home {s : Hosted Archive} {n : Nat}
    (h : s.host.disk.find s.self.directory = .ok (some (.directory n))) :
    syncDirectory s = (.ok (), s) := by
  simp [syncDirectory, Disk.sync_run h, Hosted.withDisk]

theorem finishSegment_run (s : Hosted Archive) (seg : Segment) (f : Footer) :
    finishSegment seg f s = (.ok (), ⟨s.self.finished seg f, { s.host with
      disk := s.host.disk.changed (.finish seg.slot (alignToPage f.dataSize.toNat) f.encode) }⟩) := by
  simp [finishSegment, Segment.finish, Hosted.withDisk]
  rfl

def struck (a : Archive) (index : UInt32) : Archive :=
  { a with
    segments := without a.segments index
    counts := { a.counts with segments := a.counts.segments - 1 } }

theorem Holds.struck (h : Holds a d (v :: vs)) {p : Place}
    (hn : d.node? p = some (.file v.segment.slot)) :
    Holds (a.struck v.segment.index) (d.changed (.unlink p)) vs := by
  have hframe := Disk.frame_unlinked hn
  have htail {u : Volume} (hu : u ∈ vs) : u ∈ v :: vs := List.mem_cons_of_mem _ hu
  refine ⟨h.sound.frame hframe, h.home_mono hframe, ?_, h.stored_tail hframe,
    (List.pairwise_cons.mp h.apart).2, fun u hu => Nat.lt_of_lt_of_le (h.handle_lt u (htail hu))
    hframe.opened, fun u hu => h.index_lt u (htail hu), fun u hu => h.path u (htail hu)⟩
  refine (h.segments.filter _).trans (List.Perm.of_eq ?_)
  rw [List.map_cons, List.filter_cons_of_neg (by simp), List.filter_eq_self]
  intro s hs
  obtain ⟨u, hu, rfl⟩ := List.mem_map.mp hs
  simpa using ((List.pairwise_cons.mp h.apart).1 u hu).index.symm

theorem Holds.removeSegment_run {s : Hosted Archive} (h : Holds s.self s.host.disk (v :: vs)) :
    ∃ trail name, s.host.disk.target v.segment.path = .ok (.name trail name false) ∧
      s.host.disk.meaning trail name = .ok (some (.file v.segment.slot)) ∧
      removeSegment v.segment s = (.ok (), ⟨s.self.struck v.segment.index, { s.host with
        disk := s.host.disk.changed (.unlink (Trail.place trail name)) }⟩) := by
  obtain ⟨trail, name, ht, hm⟩ := (h.stored v (List.mem_cons_self ..)).file
  refine ⟨trail, name, ht, hm, ?_⟩
  have hs := h.segment?_eq (List.mem_cons_self (a := v))
  have hu := Disk.unlinkIfPresent_run ht hm
  simp [removeSegment, hs, hu, Hosted.withDisk, Archive.struck]

end Archive

end MeteredStorage
