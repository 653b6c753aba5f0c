import MeteredStorage.Proofs.Archive.Merging
import MeteredStorage.Proofs.Archive.Reopening

namespace MeteredStorage

/-- What a scan finds of a segment, however its file came to be, is read back by location. -/
theorem Segment.read_of_scan {s : Segment} {d : Disk} (hfile : d.HasFile s.path s.slot)
    {p : PlacedRecord} (hp : p ∈ (s.records d).1) :
    p.record.Fits ∧ ∀ room, p.record.data.length ≤ room →
      s.read d p.offset .data room = .ok p.record.data := by
  cases hf : s.footer with
  | none => simp [records, hf] at hp
  | some f =>
      have hrecords : (s.records d).1 =
          (Record.scan f.items.toNat 0 ((d.content s.slot).take f.dataSize.toNat)).1 := by
        simp only [records, hf, dataArea, hfile.find]
        split <;> simp_all
      rw [hrecords] at hp
      obtain ⟨k, rest, ho, hr⟩ := Record.mem_scan hp
      obtain ⟨header, hlength, hbytes, hheader⟩ := Record.read?_eq_some hr
      rw [Nat.zero_add] at ho
      rw [← ho] at hbytes
      have hdrop : (d.content s.slot).drop p.offset = header ++ (p.record.data ++
          (rest ++ ((d.content s.slot).drop p.offset).drop (f.dataSize.toNat - p.offset))) := by
        conv => lhs; rw [← List.take_append_drop (f.dataSize.toNat - p.offset)
          ((d.content s.slot).drop p.offset), ← List.drop_take, hbytes]
        simp only [List.append_assoc]
      have hinside : ¬f.dataSize.toNat < p.offset + Record.headerSize + p.record.data.length := by
        have hle := congrArg List.length hbytes
        simp only [List.length_drop, List.length_take, List.length_append, hlength,
          Record.headerSize] at hle ⊢
        omega
      refine ⟨?_, fun room hroom => ?_⟩
      · have hlt : (Record.ofHeader header).2 < 0x100000000 := UInt32.toNat_lt _
        rwa [hheader] at hlt
      · have hsplit : Bytes.split? Record.headerSize ((d.content s.slot).drop p.offset) =
            some (header, p.record.data ++
              (rest ++ ((d.content s.slot).drop p.offset).drop (f.dataSize.toNat - p.offset))) :=
          Bytes.split?_eq_some_iff.mpr ⟨hlength, hdrop⟩
        have hdata (behind : Bytes) : Bytes.split? p.record.data.length
            (p.record.data ++ behind) = some (p.record.data, behind) :=
          Bytes.split?_eq_some_iff.mpr ⟨rfl, rfl⟩
        unfold read
        rw [hsplit]
        simp only [hheader, hf, Option.any_some, hinside, decide_false, Bool.false_eq_true, if_false,
          partSize, if_neg (Nat.not_lt.mpr hroom), hdata]
        rfl

namespace Archive

variable {s s' : Hosted Archive} {a a' : Archive} {d d' : Disk} {own vs : List Volume}
  {finds : List (Volume × Footer)} {v out : Volume} {x : Segment} {e : Entry}

theorem Kept.tabled (h : Kept a' d vs) (hdir : a.directory = a'.directory) (hname : a.name = a'.name)
    (hnext : a.nextIndex = a'.nextIndex) : Kept (a.tabled vs) d vs := by
  obtain ⟨n, hn⟩ := h.housed
  refine ⟨⟨h.holds.sound, hdir ▸ h.holds.home, List.Perm.refl _, h.holds.stored, h.holds.apart,
    h.holds.handle_lt, hnext ▸ h.holds.index_lt, fun v hv => ?_⟩, n, hdir ▸ hname ▸ hn⟩
  rw [h.holds.path v hv, pathOf, pathOf]
  change Path.join a'.directory _ = Path.join a.directory (SegmentName.ofIndex a.name _)
  rw [hdir, hname]

theorem Owns.congr (h : Owns a d own finds) (hdir : a'.directory = a.directory)
    (hname : a'.name = a.name) (hseg : a'.segments = a.segments)
    (hnext : a'.nextIndex = a.nextIndex) : Owns a' d own finds :=
  ⟨h.kept.tabled hdir hname hnext, hseg ▸ h.table⟩

theorem Owns.volume (h : Owns a d own finds) (hx : x ∈ a.segments) :
    ∃ u ∈ own ++ finds.map Prod.fst, u.segment.index = x.index ∧ u.segment.path = x.path ∧
      u.segment.slot = x.slot ∧ u.segment.handle = x.handle ∧
      (u ∈ own ∧ u.segment = x ∨ x.isComplete) := by
  obtain ⟨u, hu, rfl⟩ := List.mem_map.mp (h.table.mem_iff.mp hx)
  rcases List.mem_append.mp hu with hu | hu
  · exact ⟨u, List.mem_append_left _ hu, rfl, rfl, rfl, rfl, .inl ⟨hu, rfl⟩⟩
  · obtain ⟨p, hp, rfl⟩ := List.mem_map.mp hu
    exact ⟨p.1, List.mem_append_right _ (List.mem_map_of_mem hp), rfl, rfl, rfl, rfl, .inr rfl⟩

theorem Owns.index_lt (h : Owns a d own finds) (hx : x ∈ a.segments) :
    x.index.toNat < a.nextIndex.toNat := by
  obtain ⟨u, hu, hi, -⟩ := h.volume hx
  rw [← hi]
  exact h.kept.holds.index_lt u hu

theorem Owns.file (h : Owns a d own finds) (hx : x ∈ a.segments) :
    d.HasFile x.path x.slot ∧ x.slot < d.contents.length := by
  obtain ⟨u, hu, -, hp, hs, -⟩ := h.volume hx
  have hstored := h.kept.holds.stored u hu
  rw [← hp, ← hs]
  exact ⟨hstored.file, hstored.slot_lt⟩

theorem Owns.indices_nodup (h : Owns a d own finds) : (a.segments.map Segment.index).Nodup := by
  have hvolumes : ((own ++ finds.map Prod.fst).map (·.segment.index)).Nodup :=
    List.pairwise_map.mpr (h.kept.holds.apart.imp fun hu => hu.index)
  have hsame : ((own ++ finds.map Volume.taken).map Volume.segment).map Segment.index =
      (own ++ finds.map Prod.fst).map (·.segment.index) := by
    simp only [List.map_map, List.map_append]
    rfl
  refine (h.table.map _).nodup_iff.mpr ?_
  rw [hsame]
  exact hvolumes

theorem segment?_of_nodup (hn : (a.segments.map Segment.index).Nodup) (hx : x ∈ a.segments) :
    a.segment? x.index = some x := by
  rw [segment?]
  cases hf : a.segments.find? (·.index == x.index) with
  | none => simpa using List.find?_eq_none.mp hf x hx
  | some y =>
      have hy : y.index = x.index := by simpa using List.find?_some hf
      rcases cases_of_pairwise (List.pairwise_map.mp hn) (List.mem_of_find?_eq_some hf) hx with
        rfl | hne | hne
      · rfl
      · exact absurd hy hne
      · exact absurd hy.symm hne

theorem Owns.segment?_eq_none (h : Owns a d own finds) {index : UInt32}
    (hn : ∀ v ∈ own ++ finds.map Prod.fst, v.segment.index ≠ index) : a.segment? index = none := by
  rw [segment?, List.find?_eq_none]
  intro x hx
  obtain ⟨u, hu, hi, -⟩ := h.volume hx
  simpa [← hi] using hn u hu

theorem Owns.fetch (h : Owns a d own finds) (hv : v ∈ own) (he : e ∈ v.entries) (part : Part)
    {room : Nat} (hroom : Segment.partSize part e.record.data.length ≤ room) :
    a.fetch d e.location part room =
      .ok (Segment.partBytes part (BigEndian.ofInt64 e.record.key) e.record.data) := by
  obtain ⟨p, hp, rfl⟩ := Volume.mem_entries.mp he
  have hs := h.kept.holds.stored v (List.mem_append_left _ hv)
  have hx : v.segment ∈ a.segments :=
    h.table.mem_iff.mpr (List.mem_map_of_mem (List.mem_append_left _ hv))
  rw [fetch_of_segment (Location.segment?_pack hs.index_lt (hs.offset_lt hp))
      (segment?_of_nodup h.indices_nodup hx), Location.offset_pack hs.index_lt (hs.offset_lt hp)]
  exact hs.read hp part hroom

theorem Owns.fetch_scanned (h : Owns a d own finds) (hx : x ∈ a.segments) {p : PlacedRecord}
    (hp : p ∈ (x.records d).1) {l : Int64} (hl : x.locationOf p.offset = .ok l) {room : Nat}
    (hroom : p.record.data.length ≤ room) : a.fetch d l .data room = .ok p.record.data := by
  have hpack : l = Location.pack x.index p.offset ∧ x.index.toNat < Location.maxSegments ∧
      p.offset < Location.maxOffset := by
    simp only [Segment.locationOf, Location.encode?] at hl
    split at hl
    · rename_i l' hencode
      split at hencode
      · rename_i hrange
        cases hl
        have hpacked := Location.encode?_eq hrange.1 hrange.2
        rw [Location.encode?, if_pos hrange] at hpacked
        exact ⟨Option.some.inj (hencode.symm.trans hpacked), hrange⟩
      · cases hencode
    · cases hl
  obtain ⟨rfl, hindex, hoffset⟩ := hpack
  rw [fetch_of_segment (Location.segment?_pack hindex hoffset)
    (segment?_of_nodup h.indices_nodup hx), Location.offset_pack hindex hoffset]
  exact (Segment.read_of_scan (h.file hx).1 hp).2 room hroom

/-- Creating a segment fails and uses up an index, or adds an empty volume. -/
theorem Owns.createSegment_cases (h : Owns s.self s.host.disk own finds)
    (hnext : s.self.nextIndex.toNat + 1 < 0x100000000) :
    (∃ e s', createSegment s = (.error e, s') ∧
      s'.self = { s.self with nextIndex := s.self.nextIndex + 1 } ∧
      Owns s'.self s'.host.disk own finds ∧
      (e = .indicesExhausted ↔ Location.maxSegments ≤ s.self.nextIndex.toNat)) ∨
    ∃ v s', createSegment s = (.ok v.segment, s') ∧ v.records = [] ∧ v.segment.footer = none ∧
      v.segment.index = s.self.nextIndex ∧ s.self.nextIndex.toNat < Location.maxSegments ∧
      s'.self = s.self.entered v.segment ∧
      Disk.Frame (fun _ => True) s.host.disk s'.host.disk ∧
      Owns s'.self s'.host.disk (v :: own) finds := by
  obtain ⟨n, hn⟩ := h.kept.housed
  rcases Archive.createSegment_cases s with ⟨e, s', hrun, hself, hdisk, he⟩ |
    ⟨trail, name, s', hmax, ht, hm, hrun, hself, hdisk⟩
  · refine .inl ⟨e, s', hrun, hself, ?_, he⟩
    rw [hself, hdisk]
    have hk : Kept { s.self.tabled (own ++ finds.map Prod.fst) with
        nextIndex := s.self.nextIndex + 1 } s.host.disk (own ++ finds.map Prod.fst) :=
      ⟨h.kept.holds.skipped hnext, n, hn⟩
    exact ⟨hk.tabled rfl rfl rfl, h.table⟩
  · have hframe := Disk.frame_created (h.kept.holds.sound.target_lt ht) (Disk.meaning_eq_ok hm).2
    refine .inr ⟨⟨_, []⟩, s', hrun, rfl, rfl, rfl, hmax, hself, hdisk ▸ hframe, ?_⟩
    rw [hself, hdisk]
    have hk := h.kept.holds.entered hmax ht hm
    refine ⟨Kept.tabled ⟨hk, n, hn.created h.kept.holds.sound ht hm rfl⟩ rfl rfl rfl, ?_⟩
    refine (enter_perm fun x hx hi => ?_).trans (h.table.cons _)
    exact Nat.ne_of_lt (h.index_lt hx) (congrArg UInt32.toNat hi)

theorem Owns.append (h : Owns a d (v :: own) finds) (hopen : v.segment.footer = none) {r : Record}
    (hfits : r.Fits) (hsize : v.dataSize + r.size ≤ Location.maxOffset) :
    Owns a (d.changed (.write v.segment.slot v.dataSize r.encode)) (v.push r :: own) finds := by
  exact ⟨h.kept.append hopen hfits hsize, h.table⟩

theorem Owns.finished (h : Owns a d (v :: own) finds) (hopen : v.segment.footer = none) {f : Footer}
    (hf : Volume.Describes f v) :
    Owns (a.finished v.segment f)
      (d.changed (.finish v.segment.slot (alignToPage f.dataSize.toNat) f.encode))
      (v.finished f :: own) finds := by
  obtain ⟨n, hn⟩ := h.kept.housed
  refine ⟨Kept.tabled ⟨h.kept.holds.finished hopen hf, n,
    hn.keep (Disk.changed_finish ..).keeps rfl rfl⟩ rfl rfl rfl, ?_⟩
  have hapart := (List.pairwise_cons.mp h.kept.holds.apart).1
  refine (h.table.map _).trans (List.Perm.of_eq ?_)
  rw [List.cons_append, List.map_cons, List.map_cons, if_pos rfl, List.cons_append, List.map_cons]
  refine congrArg _ ?_
  rw [List.map_map]
  refine List.map_congr_left fun u hu => if_neg fun hh => ?_
  rcases List.mem_append.mp hu with hu | hu
  · exact (hapart u (List.mem_append_left _ hu)).handle hh.symm
  · obtain ⟨p, hp, rfl⟩ := List.mem_map.mp hu
    exact (hapart p.1 (List.mem_append_right _ (List.mem_map_of_mem hp))).handle hh.symm

theorem perm_filter_index {u : Volume} (hn : (vs.map (·.segment.index)).Nodup) (hu : u ∈ vs) :
    vs.Perm (u :: vs.filter (·.segment.index != u.segment.index)) := by
  obtain ⟨front, back, rfl⟩ := List.append_of_mem hu
  have hperm : (front ++ u :: back).Perm (u :: (front ++ back)) := List.perm_middle
  have hrest := List.nodup_cons.mp ((hperm.map (·.segment.index)).nodup_iff.mp hn)
  refine hperm.trans (List.Perm.of_eq ?_)
  rw [List.filter_append, List.filter_cons_of_neg (by simp), ← List.filter_append]
  refine congrArg _ (List.filter_eq_self.mpr fun w hw => ?_).symm
  simpa using fun he : w.segment.index = u.segment.index =>
    hrest.1 (List.mem_map.mpr ⟨w, hw, he⟩)

/-- A registered segment can be removed, and the others stay. -/
theorem Owns.removeSegment_run (h : Owns s.self s.host.disk own finds)
    (hx : x ∈ s.self.segments) :
    ∃ s', removeSegment x s = (.ok (), s') ∧ s'.self = s.self.struck x.index ∧
      Owns s'.self s'.host.disk (own.filter (·.segment.index != x.index))
        (finds.filter (·.1.segment.index != x.index)) := by
  obtain ⟨u, hu, hindex, hpath, hslot, -⟩ := h.volume hx
  obtain ⟨trail, name, ht, hm⟩ := (h.file hx).1
  have hrun : removeSegment x s = (.ok (), ⟨s.self.struck x.index, { s.host with
      disk := s.host.disk.changed (.unlink (Trail.place trail name)) }⟩) := by
    have hs := segment?_of_nodup h.indices_nodup hx
    have hunlink := Disk.unlinkIfPresent_run ht hm
    simp [removeSegment, hs, hunlink, Hosted.withDisk, Archive.struck]
  have hvolumes : ((own ++ finds.map Prod.fst).map (·.segment.index)).Nodup :=
    List.pairwise_map.mpr (h.kept.holds.apart.imp fun ha => ha.index)
  have hk := h.kept.perm (perm_filter_index hvolumes hu)
  rw [hindex] at hk
  have hsplit : (own ++ finds.map Prod.fst).filter (·.segment.index != x.index) =
      own.filter (·.segment.index != x.index) ++
        (finds.filter (·.1.segment.index != x.index)).map Prod.fst := by
    rw [List.filter_append, List.filter_map]
    rfl
  rw [hsplit] at hk
  obtain ⟨n, hn⟩ := hk.housed
  rw [← hpath, hk.holds.path u (List.mem_cons_self ..)] at ht
  rw [← hslot] at hm
  have hnode := (Disk.meaning_eq_ok hm).2
  refine ⟨_, hrun, rfl, Kept.tabled ⟨hk.holds.struck hnode, n, hn.unlinked ht hm fun w hw =>
    ((List.pairwise_cons.mp hk.holds.apart).1 w hw).index⟩ rfl rfl rfl, ?_⟩
  refine (h.table.filter (·.index != x.index)).trans (List.Perm.of_eq ?_)
  rw [List.filter_map, List.filter_append, List.filter_map]
  rfl

def Sourced (d : Disk) (inputs : List Segment) (e : Entry) : Prop :=
  ∃ x ∈ inputs, ∃ p ∈ (x.records d).1, e.record = p.record ∧ x.locationOf p.offset = .ok e.location

theorem records_frame {P : Nat → Prop} (hf : Disk.Frame P d d')
    (hx : d.HasFile x.path x.slot ∧ x.slot < d.contents.length) (hp : P x.slot) :
    x.records d' = x.records d := by
  have hfind := hx.1.find
  have hfind' := (hx.1.frame hf hp).find
  simp only [Segment.records, Segment.dataArea, hfind, hfind', hf.content _ hp hx.2]

/-- What is known of a volume that is being written stays known while records come to its end. -/
structure Fillable (I : Volume → Disk → Prop) : Prop where
  index_lt : ∀ {out d}, I out d → out.segment.index.toNat < Location.maxSegments
  push : ∀ {out d r}, I out d → r.Fits → out.dataSize + r.size ≤ Location.maxOffset →
    I (out.push r) (d.changed (.write out.segment.slot out.dataSize r.encode))

theorem Fillable.copyRecords_run {I : Volume → Disk → Prop} (hI : Fillable I) (h : I out s.host.disk)
    (input : Segment) {ps : List PlacedRecord} (hps : ∀ p ∈ ps, p.record.Fits)
    {r : Except ArchiveError (List Relocation × Nat)}
    (hgo : copyRecords out.segment input out.dataSize ps s = (r, s')) :
    ∃ es, s'.self = s.self ∧ Disk.Frame (· ≠ out.segment.slot) s.host.disk s'.host.disk ∧
      I (out.pushAll es) s'.host.disk ∧
      (∀ moves finish, r = .ok (moves, finish) →
        moves = (out.copies es).map Relocation.ofCopy ∧ finish = (out.pushAll es).dataSize ∧
        ∀ e ∈ es, ∃ p ∈ ps, e.record = p.record ∧ input.locationOf p.offset = .ok e.location) := by
  induction ps generalizing out s s' r with
  | nil =>
      cases hgo
      refine ⟨[], rfl, Disk.Frame.refl _ _, by rw [Volume.pushAll_nil]; exact h, ?_⟩
      intro moves finish hr
      cases hr
      exact ⟨rfl, by rw [Volume.pushAll_nil], by simp⟩
  | cons p ps ih =>
      by_cases hfull : Location.maxOffset < out.dataSize + p.record.size
      · simp only [copyRecords, if_pos hfull, Task.bind_run, Task.throw_run] at hgo
        cases hgo
        exact ⟨[], rfl, Disk.Frame.refl _ _, by rw [Volume.pushAll_nil]; exact h, by simp⟩
      · have hoffset : out.dataSize < Location.maxOffset := by
          have := p.record.size_pos
          omega
        have htarget : out.segment.locationOf out.dataSize =
            .ok (Location.pack out.segment.index out.dataSize) := by
          rw [Segment.locationOf, Location.encode?_eq (hI.index_lt h) hoffset]
        let d := s.host.disk.changed (.write out.segment.slot out.dataSize p.record.encode)
        have hpush : I (out.push p.record) (s.withDisk d).host.disk :=
          hI.push h (hps p (List.mem_cons_self ..)) (Nat.le_of_not_lt hfull)
        have hframe : Disk.Frame (· ≠ out.segment.slot) s.host.disk d := Disk.changed_write ..
        have happend : Hosted.onDisk (out.segment.append out.dataSize p.record) s =
            (.ok (), s.withDisk d) := by simp [Segment.append, d]
        simp only [copyRecords, if_neg hfull, Task.pure_run, Task.bind_run, happend, htarget,
          Task.ofExcept_ok] at hgo
        cases hsource : input.locationOf p.offset with
        | error e =>
            simp only [hsource, Task.ofExcept_error] at hgo
            cases hgo
            refine ⟨[⟨p.record, 0⟩], rfl, hframe, ?_, by simp⟩
            rw [Volume.pushAll_cons, Volume.pushAll_nil]
            exact hpush
        | ok source =>
            simp only [hsource, Task.ofExcept_ok] at hgo
            have hsize : out.dataSize + p.record.size = (out.push p.record).dataSize :=
              (Volume.dataSize_push ..).symm
            rw [hsize] at hgo
            rcases hrest : copyRecords out.segment input (out.push p.record).dataSize ps
              (s.withDisk d) with ⟨r', s''⟩
            obtain ⟨es, hself, hframe', ho, hok⟩ := ih hpush
              (fun q hq => hps q (List.mem_cons_of_mem _ hq)) hrest
            rw [hrest] at hgo
            refine ⟨⟨p.record, source⟩ :: es, ?_⟩
            rw [Volume.pushAll_cons]
            cases r' with
            | error e =>
                cases hgo
                exact ⟨hself, hframe.trans hframe', ho, by simp⟩
            | ok result =>
                obtain ⟨moves, finish⟩ := result
                cases hgo
                obtain ⟨hmoves, hfinish, hes⟩ := hok moves finish rfl
                refine ⟨hself, hframe.trans hframe', ho, fun moves' finish' hr => ?_⟩
                cases hr
                refine ⟨by rw [hmoves]; rfl, hfinish, fun e he => ?_⟩
                rcases List.mem_cons.mp he with rfl | he
                · exact ⟨p, List.mem_cons_self .., rfl, hsource⟩
                · obtain ⟨q, hq, hrest⟩ := hes e he
                  exact ⟨q, List.mem_cons_of_mem _ hq, hrest⟩

def Readable (d : Disk) (out x : Segment) : Prop :=
  (d.HasFile x.path x.slot ∧ x.slot < d.contents.length) ∧ x.slot ≠ out.slot

theorem Readable.frame {y : Segment} (h : Readable d y x) (hf : Disk.Frame (· ≠ y.slot) d d') :
    Readable d' y x :=
  ⟨⟨h.1.1.frame hf h.2, Nat.lt_of_lt_of_le h.1.2 hf.length⟩, h.2⟩

/-- The surviving records of segments are copied to the end of a volume. -/
theorem Fillable.copyLatest_run {I : Volume → Disk → Prop} (hI : Fillable I) (h : I out s.host.disk)
    {minKey maxKey : Int64} {seen : List Int64} {inputs : List Segment}
    (hin : ∀ x ∈ inputs, Readable s.host.disk out.segment x)
    {r : Except ArchiveError (List Relocation × Nat)}
    (hgo : copyLatest out.segment minKey maxKey seen out.dataSize inputs s = (r, s')) :
    ∃ es, s'.self = s.self ∧ Disk.Frame (· ≠ out.segment.slot) s.host.disk s'.host.disk ∧
      I (out.pushAll es) s'.host.disk ∧
      (∀ moves finish, r = .ok (moves, finish) →
        moves = (out.copies es).map Relocation.ofCopy ∧ finish = (out.pushAll es).dataSize ∧
        ∀ e ∈ es, Sourced s.host.disk inputs e) := by
  induction inputs generalizing out s s' r seen with
  | nil =>
      cases hgo
      refine ⟨[], rfl, Disk.Frame.refl _ _, by rw [Volume.pushAll_nil]; exact h, ?_⟩
      intro moves finish hr
      cases hr
      exact ⟨rfl, by rw [Volume.pushAll_nil], by simp⟩
  | cons x inputs ih =>
      have hx := hin x (List.mem_cons_self ..)
      rcases hrecords : x.records s.host.disk with ⟨rs, read⟩
      have hrs {p : PlacedRecord} (hp : p ∈ rs) : p ∈ (x.records s.host.disk).1 := by
        rw [hrecords]
        exact hp
      simp only [copyLatest, Task.bind_run, Task.get_run, hrecords] at hgo
      cases read with
      | error e =>
          cases hgo
          exact ⟨[], rfl, Disk.Frame.refl _ _, by rw [Volume.pushAll_nil]; exact h, by simp⟩
      | ok u =>
          simp only [Task.ofExcept_ok] at hgo
          rcases hcopy : copyRecords out.segment x out.dataSize
            (survivors minKey maxKey seen rs) s with ⟨r1, s1⟩
          obtain ⟨es, hself, hframe, ho, hok⟩ := hI.copyRecords_run h x
            (fun p hp => (Segment.read_of_scan hx.1.1 (hrs (mem_survivors hp))).1) hcopy
          rw [hcopy] at hgo
          cases r1 with
          | error e =>
              cases hgo
              exact ⟨es, hself, hframe, ho, by simp⟩
          | ok result =>
              obtain ⟨moves, offset⟩ := result
              obtain ⟨rfl, rfl, hes⟩ := hok moves offset rfl
              simp only at hgo
              rcases hrest : copyLatest out.segment minKey maxKey
                ((survivors minKey maxKey seen rs).map (·.record.key) ++ seen)
                (out.pushAll es).dataSize inputs s1 with ⟨r2, s2⟩
              have hin1 : ∀ y ∈ inputs, Readable s1.host.disk out.segment y := fun y hy =>
                (hin y (List.mem_cons_of_mem _ hy)).frame hframe
              obtain ⟨fs, hself', hframe', ho', hok'⟩ := ih ho hin1 hrest
              rw [hrest] at hgo
              rw [← Volume.pushAll_append] at ho'
              refine ⟨es ++ fs, ?_⟩
              cases r2 with
              | error e =>
                  cases hgo
                  exact ⟨hself'.trans hself, hframe.trans hframe', ho', by simp⟩
              | ok result =>
                  obtain ⟨more, finish⟩ := result
                  cases hgo
                  obtain ⟨rfl, rfl, hfs⟩ := hok' more finish rfl
                  refine ⟨hself'.trans hself, hframe.trans hframe', ho', fun moves finish hr => ?_⟩
                  cases hr
                  refine ⟨by rw [Volume.copies_append, List.map_append],
                    by rw [Volume.pushAll_append], fun e he => ?_⟩
                  rcases List.mem_append.mp he with he | he
                  · obtain ⟨p, hp, hsource⟩ := hes e he
                    exact ⟨x, List.mem_cons_self .., p, hrs (mem_survivors hp), hsource⟩
                  · obtain ⟨y, hy, p, hp, hsource⟩ := hfs e he
                    have hyin := hin y (List.mem_cons_of_mem _ hy)
                    rw [records_frame hframe hyin.1 hyin.2] at hp
                    exact ⟨y, List.mem_cons_of_mem _ hy, p, hp, hsource⟩

theorem Owns.apart (h : Owns a d (v :: own) finds) (hx : x ∈ a.segments) (hne : x ≠ v.segment) :
    x.index ≠ v.segment.index ∧ x.slot ≠ v.segment.slot ∧ x.handle ≠ v.segment.handle := by
  have hapart := (List.pairwise_cons.mp h.kept.holds.apart).1
  have hmem := h.table.mem_iff.mp hx
  rw [List.cons_append, List.map_cons] at hmem
  obtain ⟨u, hu, rfl⟩ := List.mem_map.mp ((List.mem_cons.mp hmem).resolve_left hne)
  have hsymm {w : Volume} (hw : v.Apart w) : w.segment.index ≠ v.segment.index ∧
      w.segment.slot ≠ v.segment.slot ∧ w.segment.handle ≠ v.segment.handle :=
    ⟨hw.index.symm, hw.slot.symm, hw.handle.symm⟩
  rcases List.mem_append.mp hu with hu | hu
  · exact hsymm (hapart u (List.mem_append_left _ hu))
  · obtain ⟨p, hp, rfl⟩ := List.mem_map.mp hu
    have hp' := hsymm (hapart p.1 (List.mem_append_right _ (List.mem_map_of_mem hp)))
    exact hp'

theorem not_complete {y : Segment} (hy : y.footer = none) (hx : x.isComplete) : x ≠ y := by
  rintro rfl
  rw [Segment.isComplete, hy] at hx
  cases hx

theorem Owns.fillable (a : Archive) (own : List Volume) (finds : List (Volume × Footer)) :
    Fillable fun out d => Owns a d (out :: own) finds ∧ out.segment.footer = none where
  index_lt h := (h.1.kept.holds.stored _ (List.mem_cons_self ..)).index_lt
  push h hfits hroom := ⟨h.1.append h.2 hfits hroom, h.2⟩

theorem Owns.copyLatest_run (h : Owns s.self s.host.disk (out :: own) finds)
    (hopen : out.segment.footer = none) {minKey maxKey : Int64} {seen : List Int64}
    {inputs : List Segment} (hin : ∀ x ∈ inputs, x ∈ s.self.segments ∧ x.isComplete)
    {r : Except ArchiveError (List Relocation × Nat)}
    (hgo : copyLatest out.segment minKey maxKey seen out.dataSize inputs s = (r, s')) :
    ∃ es, s'.self = s.self ∧ Disk.Frame (· ≠ out.segment.slot) s.host.disk s'.host.disk ∧
      Owns s'.self s'.host.disk (out.pushAll es :: own) finds ∧
      (∀ moves finish, r = .ok (moves, finish) →
        moves = (out.copies es).map Relocation.ofCopy ∧ finish = (out.pushAll es).dataSize ∧
        ∀ e ∈ es, Sourced s.host.disk inputs e) := by
  have hread : ∀ x ∈ inputs, Readable s.host.disk out.segment x := fun x hx =>
    ⟨h.file (hin x hx).1, (h.apart (hin x hx).1 (not_complete hopen (hin x hx).2)).2.1⟩
  obtain ⟨es, hself, hframe, ho, hok⟩ :=
    (Owns.fillable s.self own finds).copyLatest_run ⟨h, hopen⟩ hread hgo
  exact ⟨es, hself, hframe, hself ▸ ho.1, hok⟩

/-- The output of a merge is filled, and completed unless nothing was copied. -/
theorem Owns.fillOutput_run (h : Owns s.self s.host.disk (out :: own) finds)
    (hempty : out.records = []) (hopen : out.segment.footer = none) {newest : Footer}
    {mergedFrom : UInt64} {inputs : List Segment}
    (hin : ∀ x ∈ inputs, x ∈ s.self.segments ∧ x.isComplete)
    {r : Except ArchiveError (List Relocation × Nat)}
    (hgo : fillOutput out.segment newest mergedFrom inputs s = (r, s')) :
    ∃ out', Owns s'.self s'.host.disk (out' :: own) finds ∧
      out'.segment.index = out.segment.index ∧ s'.self.writer = s.self.writer ∧
      s'.self.nextIndex = s.self.nextIndex ∧
      (∀ x ∈ s.self.segments, x ≠ out.segment → x ∈ s'.self.segments) ∧
      ((∃ e, r = .error e ∧ out'.segment = out.segment) ∨
        ∃ es size, r = .ok ((out.copies es).map Relocation.ofCopy, size) ∧
          out'.entries = (out.copies es).map (fun c => ⟨c.1.record, c.2⟩) ∧
          (es = [] → out'.segment = out.segment) ∧ ∀ e ∈ es, Sourced s.host.disk inputs e) := by
  have hzero : out.dataSize = 0 := by rw [Volume.dataSize, hempty]; rfl
  rcases hcopy : copyLatest out.segment newest.minKey newest.maxKey [] out.dataSize inputs s with
    ⟨r1, s1⟩
  obtain ⟨es, hself, -, ho, hok⟩ := h.copyLatest_run hopen hin hcopy
  rw [hzero] at hcopy
  simp only [fillOutput, Task.bind_run, hcopy] at hgo
  cases r1 with
  | error e =>
      cases hgo
      exact ⟨out.pushAll es, ho, rfl, by rw [hself], by rw [hself], fun x hx _ => by rw [hself]; exact hx,
        .inl ⟨e, rfl, rfl⟩⟩
  | ok result =>
      obtain ⟨moves, size⟩ := result
      obtain ⟨rfl, rfl, hes⟩ := hok moves size rfl
      have hentries := Volume.entries_pushAll_of_empty hempty es
      cases es with
      | nil =>
          cases hgo
          exact ⟨out.pushAll [], ho, rfl, by rw [hself], by rw [hself],
            fun x hx _ => by rw [hself]; exact hx, .inr ⟨[], _, rfl, hentries, fun _ => rfl, hes⟩⟩
      | cons e es =>
          have hlength : ((out.copies (e :: es)).map Relocation.ofCopy).length =
              (out.pushAll (e :: es)).records.length := by
            simp [Volume.pushAll, hempty, Volume.length_copies]
          let f := mergeFooter newest mergedFrom out.segment s1.host.clock
            ((out.copies (e :: es)).map Relocation.ofCopy).length (out.pushAll (e :: es)).dataSize
          have hdesc : Volume.Describes f (out.pushAll (e :: es)) := by
            have hd := describes_mergeFooter (ho.kept.holds.stored _ (List.mem_cons_self ..)) newest
              mergedFrom s1.host.clock
            rwa [← hlength] at hd
          have hfinish := finishSegment_run s1 out.segment f
          have hcons : (List.map Relocation.ofCopy (out.copies (e :: es))).isEmpty = false := rfl
          simp only [hcons, Bool.not_false, if_true, Task.bind_run, Task.get_run] at hgo
          rw [show finishSegment out.segment _ s1 = _ from hfinish] at hgo
          cases hgo
          refine ⟨(out.pushAll (e :: es)).finished f, ho.finished hopen hdesc, rfl, by rw [hself]; rfl,
            by rw [hself]; rfl, fun x hx hne => ?_, .inr ⟨e :: es, _, rfl, hentries, by simp, hes⟩⟩
          rw [hself]
          refine List.mem_map.mpr ⟨x, hx, if_neg ?_⟩
          exact (h.apart hx hne).2.2

theorem Owns.discard (h : Owns s.self s.host.disk (out :: own) finds) :
    ∃ s', removeSegment out.segment s = (.ok (), s') ∧ s'.self = s.self.struck out.segment.index ∧
      Owns s'.self s'.host.disk own finds := by
  have hx : out.segment ∈ s.self.segments := h.table.mem_iff.mpr (List.mem_cons_self ..)
  obtain ⟨s', hrun, hself, ho⟩ := h.removeSegment_run hx
  have hapart := (List.pairwise_cons.mp h.kept.holds.apart).1
  refine ⟨s', hrun, hself, ?_⟩
  have hown : own.filter (·.segment.index != out.segment.index) = own :=
    List.filter_eq_self.mpr fun v hv => by
      simpa using (hapart v (List.mem_append_left _ hv)).index.symm
  have hfinds : finds.filter (·.1.segment.index != out.segment.index) = finds :=
    List.filter_eq_self.mpr fun p hp => by
      simpa using (hapart p.1 (List.mem_append_right _ (List.mem_map_of_mem hp))).index.symm
  rwa [List.filter_cons_of_neg (by simp), hown, hfinds] at ho

theorem Owns.syncDirectory_run (h : Owns s.self s.host.disk own finds) :
    syncDirectory s = (.ok (), s) :=
  h.kept.holds.home.elim fun _ hn => syncDirectory_of_home hn

structure Copied (s s' : Hosted Archive) (own : List Volume) (finds : List (Volume × Footer))
    (inputs : List Segment) (r : Except ArchiveError Merge) (outs : List Volume) : Prop where
  owns : Owns s'.self s'.host.disk (outs ++ own) finds
  writer : s'.self.writer = s.self.writer
  next : s'.self.nextIndex = s.self.nextIndex + 1
  index : ∀ o ∈ outs, o.segment.index = s.self.nextIndex
  segments : ∀ x ∈ s.self.segments, x ∈ s'.self.segments
  moves : ∀ m, r = .ok m → m.inputs = inputs ∧ ∃ copies : List (Entry × Int64),
    m.moves = copies.map Relocation.ofCopy ∧
      Volume.allEntries outs = copies.map (fun c => ⟨c.1.record, c.2⟩) ∧
      ∀ c ∈ copies, Sourced s.host.disk inputs c.1

theorem Copied.none {inputs : List Segment} {r : Except ArchiveError Merge}
    (ho : Owns s'.self s'.host.disk own finds)
    (hwriter : s'.self.writer = s.self.writer) (hnext : s'.self.nextIndex = s.self.nextIndex + 1)
    (hsegments : ∀ x ∈ s.self.segments, x ∈ s'.self.segments)
    (hmoves : ∀ m, r = .ok m → m.inputs = inputs ∧ m.moves = []) :
    Copied s s' own finds inputs r [] := by
  refine ⟨ho, hwriter, hnext, by simp, hsegments, fun m hm => ?_⟩
  obtain ⟨hinputs, hnone⟩ := hmoves m hm
  exact ⟨hinputs, [], by rw [hnone, List.map_nil], rfl, by simp⟩

theorem Owns.mem_enter (h : Owns s.self s.host.disk own finds) {y : Segment}
    (hindex : y.index = s.self.nextIndex) (hx : x ∈ s.self.segments) :
    x ∈ (s.self.entered y).segments ∧ x ≠ y := by
  have hne {z : Segment} (hz : z ∈ s.self.segments) : z.index ≠ y.index := by
    intro he
    refine Nat.ne_of_lt (h.index_lt hz) ?_
    rw [he, hindex]
  refine ⟨?_, fun he => hne hx (congrArg Segment.index he)⟩
  rw [Archive.entered, (enter_perm fun z hz => hne hz).mem_iff]
  exact List.mem_cons_of_mem _ hx

/-- However a merge of registered segments ends, its output holds what it has read of them. -/
theorem Owns.mergeRun_run (h : Owns s.self s.host.disk own finds)
    (hnext : s.self.nextIndex.toNat + 1 < 0x100000000) {run : List Segment} {newest : Footer}
    (hin : ∀ x ∈ run, x ∈ s.self.segments ∧ x.isComplete) {r : Except ArchiveError Merge}
    (hgo : mergeRun run newest s = (r, s')) :
    (∃ outs, Copied s s' own finds run.reverse r outs) ∧
      (r ≠ .error .indicesExhausted → s.self.nextIndex.toNat < Location.maxSegments) := by
  rcases h.createSegment_cases hnext with ⟨e, s1, hcreate, hself, ho, hex⟩ |
    ⟨out, s1, hcreate, hempty, hopen, hindex, hmax, hself, hframe, ho⟩
  · cases (Task.bind_error hcreate).symm.trans hgo
    refine ⟨⟨[], .none ho (by rw [hself]) (by rw [hself]) (fun x hx => by rw [hself]; exact hx)
      (by simp)⟩, fun hne => Nat.lt_of_not_le fun hle => hne ?_⟩
    rw [hex.mpr hle]
  · refine ⟨?_, fun _ => hmax⟩
    have hold {x : Segment} (hx : x ∈ s.self.segments) : x ∈ s1.self.segments ∧ x ≠ out.segment := by
      rw [hself]
      exact h.mem_enter hindex hx
    have hsources {e : Entry} (he : Sourced s1.host.disk run.reverse e) :
        Sourced s.host.disk run.reverse e := by
      obtain ⟨x, hx, p, hp, hsource⟩ := he
      have hxin := hin x (List.mem_reverse.mp hx)
      rw [records_frame hframe (h.file hxin.1) trivial] at hp
      exact ⟨x, hx, p, hp, hsource⟩
    have hwriter : s1.self.writer = s.self.writer := by rw [hself]; rfl
    have hstep : s1.self.nextIndex = s.self.nextIndex + 1 := by rw [hself]; rfl
    rcases hfill : fillFrom run newest out.segment (announced s1 run newest out.segment) with ⟨r3, s3⟩
    obtain ⟨out', ho', hindex', hwriter', hnext', hsegments, hresult⟩ :=
      Owns.fillOutput_run (s := announced s1 run newest out.segment) ho hempty hopen
        (fun x hx => ⟨(hold (hin x (List.mem_reverse.mp hx)).1).1, (hin x (List.mem_reverse.mp hx)).2⟩)
        hfill
    have hkept {x : Segment} (hx : x ∈ s.self.segments) : x ∈ s3.self.segments :=
      hsegments x (hold hx).1 (hold hx).2
    have houtput : ∀ o ∈ [out'], o.segment.index = s.self.nextIndex := fun o ho => by
      rw [List.mem_singleton.mp ho, hindex', hindex]
    -- An output that is given up leaves what there was before it.
    have hdiscard {s4 : Hosted Archive} (hself4 : s4.self = s3.self.struck out.segment.index)
        (ho4 : Owns s4.self s4.host.disk own finds)
        (hmoves : ∀ m, r = .ok m → m.inputs = run.reverse ∧ m.moves = []) :
        Copied s s4 own finds run.reverse r [] := by
      refine .none ho4 (by rw [hself4]; exact hwriter'.trans hwriter)
        (by rw [hself4]; exact hnext'.trans hstep) (fun x hx => ?_) hmoves
      rw [hself4]
      refine List.mem_filter.mpr ⟨hkept hx, ?_⟩
      simpa using (ho.apart (hold hx).1 (hold hx).2).1
    rcases hresult with ⟨e, rfl, hseg⟩ | ⟨es, size, rfl, hentries, hnone, hes⟩
    · by_cases hrange : e = .outOfRange
      · subst hrange
        cases (mergeRun_of_outOfRange hcreate hfill).symm.trans hgo
        exact ⟨[out'], ho', hwriter'.trans hwriter, hnext'.trans hstep, houtput,
          fun x hx => hkept hx, by simp⟩
      · obtain ⟨s4, hremove, hself4, ho4⟩ := ho'.discard
        rw [hseg] at hremove hself4
        cases (mergeRun_of_error hcreate hfill hrange hremove).symm.trans hgo
        exact ⟨[], hdiscard hself4 ho4 (by simp)⟩
    · cases es with
      | nil =>
          obtain ⟨s4, hremove, hself4, ho4⟩ := ho'.discard
          rw [hnone rfl] at hremove hself4
          cases (mergeRun_of_no_moves hcreate hfill hremove).symm.trans hgo
          exact ⟨[], hdiscard hself4 ho4 fun m hm => by cases hm; exact ⟨rfl, rfl⟩⟩
      | cons e es =>
          cases (mergeRun_of_moves hcreate hfill (by simp [Volume.copies]) ho'.syncDirectory_run).symm.trans
            hgo
          refine ⟨[out'], ho', hwriter'.trans hwriter, hnext'.trans hstep, houtput,
            fun x hx => hkept hx, fun m hm => ?_⟩
          cases hm
          refine ⟨rfl, out.copies (e :: es), rfl, ?_, fun c hc =>
            hsources (hes c.1 (Volume.mem_of_mem_copies hc))⟩
          rw [Volume.allEntries, List.flatMap_singleton, hentries]

end Archive

end MeteredStorage
