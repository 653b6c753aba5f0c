import MeteredStorage.Proofs.Archive.Keeping

namespace MeteredStorage

namespace Volume

def writer (v : Volume) : Writer := ⟨v.segment, v.dataSize, v.records.length⟩

def allEntries (vs : List Volume) : List Entry := vs.flatMap entries

theorem mem_allEntries {vs : List Volume} {e : Entry} :
    e ∈ allEntries vs ↔ ∃ v ∈ vs, e ∈ v.entries := List.mem_flatMap

theorem allEntries_append (us vs : List Volume) :
    allEntries (us ++ vs) = allEntries us ++ allEntries vs := List.flatMap_append

theorem length_le_dataSize (v : Volume) : v.records.length ≤ v.dataSize := by
  rw [dataSize]
  induction v.records with
  | nil => exact Nat.le_refl _
  | cons r rs ih =>
      have := r.size_pos
      rw [List.length_cons, Record.sizeAll]
      omega

end Volume

namespace Archive

/-- `a'` comes from `a` by operations that used up `n` indices. -/
structure Follows (n : Nat) (a a' : Archive) : Prop where
  directory : a'.directory = a.directory
  name : a'.name = a.name
  nextIndex : a'.nextIndex.toNat = a.nextIndex.toNat + n

theorem Follows.refl (a : Archive) : Follows 0 a a := ⟨rfl, rfl, rfl⟩

theorem Follows.trans {a b c : Archive} {m n : Nat} (h : Follows m a b) (h' : Follows n b c) :
    Follows (m + n) a c where
  directory := h'.directory.trans h.directory
  name := h'.name.trans h.name
  nextIndex := by rw [h'.nextIndex, h.nextIndex, Nat.add_assoc]

/-- The volumes of an archive: `line` by rising age, `old` replaced, `current` being written. -/
structure Shelved (a : Archive) (d : Disk) (line old : List Volume) (current : Option Volume) :
    Prop where
  kept : Kept a d (current.toList ++ (line ++ old))
  complete : ∀ v ∈ line ++ old, v.segment.isComplete
  unfinished : ∀ v ∈ current, v.segment.footer = none
  writer : a.writer = current.map Volume.writer
  ranked : Segment.Ranked ((line ++ current.toList).map Volume.segment)

variable {a : Archive} {d : Disk} {s : Hosted Archive} {line old : List Volume}
  {current : Option Volume} {v : Volume}

theorem toNat_next {i : UInt32} (h : i.toNat + 1 < 0x100000000) : (i + 1).toNat = i.toNat + 1 := by
  rw [UInt32.toNat_add]
  exact Nat.mod_eq_of_lt h

theorem Shelved.mem_line (h : Shelved a d line old current) (hv : v ∈ line) :
    v.Stored d ∧ v.segment.isComplete :=
  ⟨h.kept.holds.stored v (List.mem_append_right _ (List.mem_append_left _ hv)),
    h.complete v (List.mem_append_left _ hv)⟩

theorem Shelved.completed_eq (h : Shelved a d line [] current) :
    a.completed = line.map Volume.segment := by
  have hline : Segment.Ranked (line.map Volume.segment) :=
    h.ranked.sublist ((List.sublist_append_left ..).map _)
  have hc : ∀ s ∈ line.map Volume.segment, s.isComplete := by
    intro s hs
    obtain ⟨v, hv, rfl⟩ := List.mem_map.mp hs
    exact (h.mem_line hv).2
  refine hline.sortByAge_eq hc ((h.kept.holds.segments.filter _).trans (List.Perm.of_eq ?_))
  rw [List.append_nil, List.map_append, List.filter_append, List.filter_eq_self.mpr hc,
    List.filter_eq_nil_iff.mpr, List.nil_append]
  intro s hs
  obtain ⟨v, hv, rfl⟩ := List.mem_map.mp hs
  simp [Segment.isComplete, h.unfinished v (Option.mem_toList.mp hv)]

theorem visitSegments_run (hs : ∀ v ∈ line, v.Stored d ∧ v.segment.isComplete) :
    visitSegments d (line.map Volume.segment) =
      ((Volume.allEntries line).map fun e => (e.record.key, e.location), .ok ()) := by
  induction line with
  | nil => rfl
  | cons v line ih =>
      obtain ⟨hv, hc⟩ := hs v (List.mem_cons_self ..)
      rw [List.map_cons, visitSegments, hv.visitSegment_run hc]
      simp only [ih fun u hu => hs u (List.mem_cons_of_mem _ hu)]
      simp only [Volume.visits, Volume.allEntries, List.flatMap_cons, List.map_append]

theorem Shelved.replay_run (h : Shelved a d line [] current) :
    a.replay d = ((Volume.allEntries line).map fun e => (e.record.key, e.location), .ok ()) := by
  rw [replay, h.completed_eq]
  exact visitSegments_run fun v hv => h.mem_line hv

/-- A segment that takes the next index is newer than all others. -/
theorem Shelved.newest (h : Shelved a d line old current) {u : Volume}
    (hu : u ∈ line ++ current.toList) : u.segment.generation < a.nextIndex.toNat := by
  refine Nat.lt_of_le_of_lt (h.ranked.dated _ (List.mem_map_of_mem hu)).generation_le
    (h.kept.holds.index_lt u ?_)
  rcases List.mem_append.mp hu with hu | hu
  · exact List.mem_append_right _ (List.mem_append_left _ hu)
  · exact List.mem_append_left _ hu

theorem Shelved.congr {a' : Archive} (h : Shelved a d line old current)
    (hdir : a'.directory = a.directory) (hname : a'.name = a.name)
    (hseg : a'.segments = a.segments) (hnext : a'.nextIndex = a.nextIndex)
    (hwriter : a'.writer = a.writer) : Shelved a' d line old current :=
  ⟨h.kept.congr hdir hname hseg hnext, h.complete, h.unfinished, hwriter ▸ h.writer, h.ranked⟩

theorem Shelved.startWriting_cases (h : Shelved s.self s.host.disk line old none)
    (hnext : s.self.nextIndex.toNat + 1 < 0x100000000) :
    (∃ e s', startWriting s = (.error e, s') ∧ Follows 1 s.self s'.self ∧
      Shelved s'.self s'.host.disk line old none ∧
      (e = .indicesExhausted ↔ Location.maxSegments ≤ s.self.nextIndex.toNat)) ∨
    ∃ v s', startWriting s = (.ok (), s') ∧ v.records = [] ∧
      v.segment.index = s.self.nextIndex ∧ s.self.nextIndex.toNat < Location.maxSegments ∧
      Follows 1 s.self s'.self ∧ Shelved s'.self s'.host.disk line old (some v) := by
  have hidle : s.self.writer = none := h.writer
  rcases h.kept.createSegment_cases hnext with ⟨e, s', hrun, hself, hk, he⟩ |
    ⟨v, s', hrun, hempty, hopen, hindex, hmax, hself, hk⟩
  · refine .inl ⟨e, s', ?_, ⟨by rw [hself], by rw [hself], by rw [hself]; exact toNat_next hnext⟩,
      ⟨hk, h.complete, h.unfinished, by rw [hself]; exact h.writer, h.ranked⟩, he⟩
    simp [startWriting, hidle, hrun]
  · refine .inr ⟨v, _, by simp [startWriting, hidle, hrun]; rfl, hempty, hindex, hmax,
      ⟨by simp [hself, Archive.entered], by simp [hself, Archive.entered],
        by simp only [hself, Archive.entered]; exact toNat_next hnext⟩, ?_⟩
    refine ⟨hk.congr rfl rfl rfl rfl, h.complete, fun u hu => ?_, ?_, ?_⟩
    · cases hu
      exact hopen
    · simp [Volume.writer, Volume.dataSize, hempty, Record.sizeAll]
    · have hgen : v.segment.generation = s.self.nextIndex.toNat := by
        simp [Segment.generation, hopen, hindex]
      have horg : v.segment.origin = s.self.nextIndex.toNat := by
        simp [Segment.origin, hopen, hindex]
      have hline : Segment.Ranked (line.map Volume.segment) := by
        simpa using h.ranked
      have hdated : v.segment.Dated :=
        ⟨Nat.le_of_eq (by rw [hgen, horg]), Nat.le_of_eq (by rw [hgen, hindex])⟩
      rw [Option.toList_some, List.map_append, List.map_singleton]
      refine Segment.ranked_concat.mpr ⟨hline, hdated, fun t ht => ?_⟩
      obtain ⟨w, hw, rfl⟩ := List.mem_map.mp ht
      rw [horg]
      exact h.newest (List.mem_append_left _ hw)

def recorded (s : Hosted Archive) (v : Volume) (r : Record) : Hosted Archive where
  self := { s.self with
    writer := some (v.push r).writer
    counts := { s.self.counts with writes := s.self.counts.writes + 1 } }
  host := { s.host with
    disk := s.host.disk.changed (.write v.segment.slot v.dataSize r.encode)
    events := .recordStored r.key (Location.pack v.segment.index v.dataSize) :: s.host.events }

/--
In a session a record whose length has 32 bits is refused only if there is no room for it. A record that
is refused changes nothing.
-/
theorem store_cases_of_writer (hw : s.self.writer = some v.writer)
    (hindex : v.segment.index.toNat < Location.maxSegments) (r : Record) :
    (∃ e, store r s = (.error e, s) ∧ e ≠ .indicesExhausted ∧
      (r.Fits → Location.maxOffset < v.dataSize + r.size)) ∨
    (r.Fits ∧ v.dataSize + r.size ≤ Location.maxOffset ∧
      store r s = (.ok (Location.pack v.segment.index v.dataSize), recorded s v r)) := by
  by_cases hfull : Location.maxOffset < v.dataSize + r.size
  · refine .inl ⟨.segmentFull v.segment.index, ?_, by simp, fun _ => hfull⟩
    simp [store, hw, Volume.writer, hfull]
  · have hoffset : v.dataSize < Location.maxOffset := by
      have := r.size_pos
      omega
    have hloc : v.segment.locationOf v.dataSize =
        .ok (Location.pack v.segment.index v.dataSize) := by
      rw [Segment.locationOf, Location.encode?_eq hindex hoffset]
    by_cases hlarge : 0x100000000 ≤ r.data.length
    · refine .inl ⟨.recordTooLarge r.data.length, ?_, by simp, fun hfits =>
        absurd hfits (Nat.not_lt.mpr hlarge)⟩
      simp [store, hw, Volume.writer, hfull, hloc, hlarge]
    · refine .inr ⟨Nat.lt_of_not_le hlarge, Nat.le_of_not_lt hfull, ?_⟩
      have hwriter : (v.push r).writer = ⟨v.segment, v.dataSize + r.size, v.records.length + 1⟩ := by
        simp only [Volume.writer, Volume.dataSize_push]
        simp [Volume.push]
      have happend : Hosted.onDisk (v.segment.append v.dataSize r) s =
          (.ok (), s.withDisk (s.host.disk.changed (.write v.segment.slot v.dataSize r.encode))) := by
        simp [Segment.append]
      simp only [store, Task.bind_run, Task.get_run, hw, Volume.writer, if_neg hfull, if_neg hlarge,
        Task.pure_run, hloc, Task.ofExcept_ok, happend]
      rw [recorded, hwriter]
      rfl

theorem Shelved.store_cases (h : Shelved s.self s.host.disk line old current) (r : Record) :
    (∃ e, store r s = (.error e, s) ∧ e ≠ .indicesExhausted ∧
      ∀ v ∈ current, r.Fits → Location.maxOffset < v.dataSize + r.size) ∨
    ∃ v s', current = some v ∧ v.segment.index.toNat < Location.maxSegments ∧
      v.dataSize < Location.maxOffset ∧
      store r s = (.ok (Location.pack v.segment.index v.dataSize), s') ∧
      Follows 0 s.self s'.self ∧
      Shelved s'.self s'.host.disk line old (some (v.push r)) := by
  have hw := h.writer
  cases current with
  | none => exact .inl ⟨.noSession, by simp [store, hw], by simp, by simp⟩
  | some v =>
      have hopen := h.unfinished v rfl
      have hv := h.kept.holds.stored v (List.mem_append_left _ (by simp))
      rcases store_cases_of_writer hw hv.index_lt r with ⟨e, hrun, hne, hfull⟩ | ⟨hfits, hroom, hrun⟩
      · exact .inl ⟨e, hrun, hne, fun u hu => by cases hu; exact hfull⟩
      · have hoffset : v.dataSize < Location.maxOffset := by
          have := r.size_pos
          omega
        refine .inr ⟨v, _, rfl, hv.index_lt, hoffset, hrun, ⟨rfl, rfl, rfl⟩,
          (Kept.append h.kept hopen hfits hroom).congr rfl rfl rfl rfl, h.complete, fun u hu => ?_, rfl,
          ?_⟩
        · cases hu
          exact hopen
        · have hr := h.ranked
          rw [Option.toList_some, List.map_append] at hr ⊢
          exact hr

theorem describes_sessionFooter (hv : v.Stored d) (created : UInt64) (minKey maxKey : Int64) :
    Volume.Describes (sessionFooter v.writer created minKey maxKey) v := by
  have hsize := hv.size_le
  have hlen := v.length_le_dataSize
  rw [Location.maxOffset_eq] at hsize
  refine ⟨rfl, UInt64.toNat_ofNat_of_lt' ?_, UInt64.toNat_ofNat_of_lt' ?_, fun _ => ⟨rfl, rfl⟩⟩
  · simp only [Volume.writer, UInt64.size]
    omega
  · simp only [Volume.writer, UInt64.size]
    omega

theorem Shelved.endWriting_run (h : Shelved s.self s.host.disk line old (some v))
    (minKey maxKey : Int64) :
    ∃ f s', endWriting minKey maxKey s = (.ok (), s') ∧ f.minKey = minKey ∧ f.maxKey = maxKey ∧
      f.merged = false ∧ Follows 0 s.self s'.self ∧
      Shelved s'.self s'.host.disk (line ++ [v.finished f]) old none := by
  have hw : s.self.writer = some v.writer := h.writer
  have hopen := h.unfinished v rfl
  have hv := h.kept.holds.stored v (List.mem_append_left _ (by simp))
  let f := sessionFooter v.writer s.host.clock minKey maxKey
  obtain ⟨s', hrun, hself, hk⟩ := Kept.finishSegment_run
    (s := { s with self := { s.self with writer := none } }) (f := f) (h.kept.congr rfl rfl rfl rfl)
    hopen (describes_sessionFooter hv s.host.clock minKey maxKey)
  have hperm : (v.finished f :: (line ++ old)).Perm
      ((none : Option Volume).toList ++ (line ++ [v.finished f] ++ old)) := by
    rw [Option.toList_none, List.nil_append, List.append_assoc]
    exact List.perm_middle.symm
  let event := Event.sessionCompleted v.segment.index v.records.length f.size
  refine ⟨f, ⟨s'.self, { s'.host with events := event :: s'.host.events }⟩, ?_, rfl, rfl, rfl,
    by rw [hself]; exact ⟨rfl, rfl, rfl⟩, ?_⟩
  · have hfinish : finishSegment v.writer.segment (sessionFooter v.writer s.host.clock minKey maxKey)
        { s with self := { s.self with writer := none } } = (.ok (), s') := hrun
    simp only [endWriting, Task.bind_run, Task.get_run, hw, Hosted.update_run, hfinish,
      hk.syncDirectory_run, Hosted.report_run]
    rfl
  · refine ⟨hk.perm hperm, ?_, by simp, by rw [hself]; rfl, ?_⟩
    · intro u hu
      rcases List.mem_append.mp hu with hu | hu
      · rcases List.mem_append.mp hu with hu | hu
        · exact h.complete u (List.mem_append_left _ hu)
        · rw [List.mem_singleton.mp hu]
          rfl
      · exact h.complete u (List.mem_append_right _ hu)
    · have hr := h.ranked
      have hgen : (v.finished f).segment.generation = v.segment.generation := by
        simp [Segment.generation, Volume.finished, hopen, f, sessionFooter, Volume.writer]
      have horg : (v.finished f).segment.origin = v.segment.origin := by
        simp [Segment.origin, Volume.finished, hopen, f, sessionFooter, Volume.writer]
      rw [Option.toList_some, List.map_append, List.map_singleton] at hr
      obtain ⟨hline, hdated, hlast⟩ := Segment.ranked_concat.mp hr
      rw [Option.toList_none, List.append_nil, List.map_append, List.map_singleton]
      refine Segment.ranked_concat.mpr ⟨hline, ⟨?_, ?_⟩, fun t ht => ?_⟩
      · rw [hgen, horg]
        exact hdated.origin_le
      · rw [hgen]
        exact hdated.generation_le
      · rw [horg]
        exact hlast t ht

end Archive

end MeteredStorage
