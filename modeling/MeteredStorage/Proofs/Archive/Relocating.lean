import MeteredStorage.Proofs.Archive.Creating
import MeteredStorage.Proofs.Archive.Staleness
import MeteredStorage.Proofs.Archive.Undoing

namespace MeteredStorage

namespace Record

theorem sizeAll_perm {rs ss : List Record} (h : rs.Perm ss) : sizeAll rs = sizeAll ss := by
  induction h with
  | nil => rfl
  | cons r _ ih => rw [sizeAll, sizeAll, ih]
  | swap r r' _ => simp only [sizeAll, Nat.add_left_comm]
  | trans _ _ ih ih' => exact ih.trans ih'

theorem perm_of_filter {rs ss : List Record}
    (h : ∀ key, rs.filter (·.key == key) = ss.filter (·.key == key)) : rs.Perm ss := by
  refine List.perm_iff_count.mpr fun r => ?_
  rw [← List.count_filter (p := (·.key == r.key)) (by simp), h, List.count_filter (by simp)]

theorem filter_of_nodup {rs : List Record} (h : (rs.map Record.key).Nodup) (key : Int64) :
    rs.filter (·.key == key) = (Entry.latestRecord key rs).toList := by
  induction rs with
  | nil => rfl
  | cons r rs ih =>
      obtain ⟨hne, hnodup⟩ := List.nodup_cons.mp h
      by_cases hk : r.key = key
      · have hnone : rs.filter (·.key == key) = [] := by
          refine List.filter_eq_nil_iff.mpr fun r' hr' he => hne ?_
          exact List.mem_map.mpr ⟨r', hr', (beq_iff_eq.mp he).trans hk.symm⟩
        rw [Entry.latestRecord, List.filter_cons_of_pos (by simpa using hk), hnone]
        rfl
      · rw [Entry.latestRecord, List.filter_cons_of_neg (by simpa using hk)]
        exact ih hnodup

end Record

theorem Volume.filter_surviving (minKey maxKey : Int64) (run : List Volume) (key : Int64) :
    ((allSurvivors minKey maxKey [] run.reverse).map Entry.record).filter (·.key == key) =
      if minKey ≤ key ∧ key ≤ maxKey then
        (Entry.latestRecord key ((allEntries run).map Entry.record)).toList
      else [] := by
  rw [List.filter_map]
  refine (congrArg (List.map Entry.record) (filter_allSurvivors_nil ..)).trans ?_
  split
  · rw [← Option.toList_map, Entry.map_latest]
  · rfl

theorem Relocates.size_eq {run outs : List Volume} {minKey maxKey : Int64} {moves : List Relocation}
    (h : Relocates run outs minKey maxKey moves) :
    Record.sizeAll ((Volume.allEntries outs).map Entry.record) =
      Volume.survivingSize minKey maxKey run := by
  -- The output has each key once, and the last record of each key that survives.
  have hnodup : (((Volume.allEntries outs).map Entry.record).map Record.key).Nodup := by
    have hkeys := congrArg (List.map Prod.fst) h.targets
    rw [List.map_map, List.map_map] at hkeys
    rw [List.map_map]
    exact (hkeys ▸ h.nodup : _)
  refine Record.sizeAll_perm (Record.perm_of_filter fun key => ?_)
  rw [Record.filter_of_nodup hnodup, Volume.filter_surviving, ← Entry.map_latest, ← Entry.map_latest]
  split
  · rename_i hin
    rw [h.latest_eq hin.1 hin.2]
  · rename_i hout
    rw [h.latest_outside hout]
    rfl

namespace Archive

def survivingSize (d : Disk) (newest : Footer) (run : List Segment) : Nat :=
  Record.sizeAll ((survivors newest.minKey newest.maxKey []
    (run.flatMap fun x => (x.records d).1)).map (·.record))

def ReadsAs (s : Hosted Archive) (location : Int64) (r : Record) : Prop :=
  ∀ part room, Segment.partSize part r.data.length ≤ room →
    s.self.fetch s.host.disk location part room =
      .ok (Segment.partBytes part (BigEndian.ofInt64 r.key) r.data)

structure Tells (s : Hosted Archive) (run : List Segment) (newest : Footer) (moves : List Relocation)
    (t : Hosted Archive) : Prop where
  nodup : (moves.map Relocation.key).Nodup
  keys : ∀ key, key ∈ moves.map Relocation.key ↔ (newest.minKey ≤ key ∧ key ≤ newest.maxKey) ∧
    ∃ visit ∈ (visitSegments s.host.disk run).1, visit.1 = key
  source : ∀ m ∈ moves, ((visitSegments s.host.disk run).1.filter (·.1 == m.key)).getLast? =
    some (m.key, m.source)
  copied : ∀ m ∈ moves, ∃ r : Record, r.key = m.key ∧ ReadsAs s m.source r ∧ ReadsAs t m.source r ∧
    ReadsAs t m.target r

structure Leaves (s : Hosted Archive) (front run back : List Segment) (newest : Footer)
    (moves : List Relocation) (output : Option Segment) (t : Hosted Archive) : Prop where
  empty : output = none ↔ moves = []
  completed : t.self.completed = front ++ (output.toList ++ back)
  segments : t.self.segments.Perm
    (output.toList ++ s.self.segments.filter fun x => !run.contains x)
  writer : t.self.writer = s.self.writer
  merged : ∀ x ∈ output, x.index = s.self.nextIndex ∧
    (∃ f, x.footer = some f ∧ f.merged = true ∧ f.minKey = newest.minKey ∧ f.maxKey = newest.maxKey) ∧
    visitSegments t.host.disk [x] = (moves.map fun m => (m.key, m.target), .ok ())
  copied : ∀ m ∈ moves, ∃ r : Record, r.key = m.key ∧ ReadsAs s m.source r ∧ ReadsAs t m.target r
  others : ∀ x ∈ s.self.segments, x ∉ run → ∀ location, Location.segment? location = some x.index →
    ∀ part room, t.self.fetch t.host.disk location part room =
      s.self.fetch s.host.disk location part room

variable {directory : Path} {name : String} {s s' t : Hosted Archive} {line : List Volume}
  {current : Option Volume} {files front run back : List Segment} {first middle last : List Volume}
  {newest : Footer} {m : Merge} {out : Option Volume}

theorem survivingSize_eq {d : Disk} {vs : List Volume}
    (hv : ∀ v ∈ vs, v.Stored d ∧ v.segment.isComplete) (newest : Footer) :
    survivingSize d newest (vs.map Volume.segment) =
      Volume.survivingSize newest.minKey newest.maxKey vs := by
  have hrecords : ((vs.map Volume.segment).flatMap fun x => (x.records d).1).map (·.record) =
      (Volume.allEntries vs).map Entry.record := by
    induction vs with
    | nil => rfl
    | cons v vs ih =>
        obtain ⟨hstored, hc⟩ := hv v (List.mem_cons_self ..)
        have hrest := ih fun u hu => hv u (List.mem_cons_of_mem _ hu)
        rw [List.map_cons, List.flatMap_cons, List.map_append, hrest, hstored.records_run hc]
        rw [Volume.allEntries, Volume.allEntries, List.flatMap_cons, List.map_append, Volume.map_entries,
          Record.map_place]
  refine Record.sizeAll_perm (Record.perm_of_filter fun key => ?_)
  rw [Volume.filter_surviving, ← hrecords, List.filter_map]
  refine (congrArg (List.map PlacedRecord.record) (filter_survivors _ _ [] _ key)).trans ?_
  simp only [List.not_mem_nil, not_false_eq_true, and_true]
  split
  · rw [← Option.toList_map, Entry.latestRecord, List.filter_map, List.getLast?_map]
    rfl
  · rfl

theorem Shelved.readsAs {old : List Volume} (h : Shelved s.self s.host.disk line old current) {e : Entry}
    (he : e ∈ Volume.allEntries (line ++ old)) : ReadsAs s e.location e.record := by
  obtain ⟨v, hv, hev⟩ := Volume.mem_allEntries.mp he
  exact fun part room hroom => h.kept.holds.fetch (List.mem_append_right _ hv) hev part hroom

theorem Prepared.tells (h : Shelved s.self s.host.disk line [] current)
    (hp : Prepared s s' line current m first middle last newest out) :
    Tells s (middle.map Volume.segment) newest m.moves s' := by
  have hmiddle : middle ⊆ line := fun v hv => by simp [hp.line_eq, hv]
  have hvisits : (visitSegments s.host.disk (middle.map Volume.segment)).1 =
      (Volume.allEntries middle).map fun e => (e.record.key, e.location) := by
    rw [visitSegments_run fun v hv => h.mem_line (hmiddle hv)]
  refine ⟨hp.relocates.nodup, fun key => ⟨fun hk => ?_, fun hk => ?_⟩, fun mv hm => ?_, fun mv hm => ?_⟩
  · obtain ⟨mv, hm, rfl⟩ := List.mem_map.mp hk
    obtain ⟨r, hr, -⟩ := hp.relocates.moved mv hm
    obtain ⟨hmem, hkey⟩ := Entry.latest_mem hr
    refine ⟨hp.relocates.range mv hm, (mv.key, mv.source), ?_, rfl⟩
    rw [hvisits]
    exact List.mem_map.mpr ⟨_, hmem, by rw [hkey]⟩
  · obtain ⟨⟨hmin, hmax⟩, visit, hvisit, rfl⟩ := hk
    rw [hvisits] at hvisit
    obtain ⟨e, he, rfl⟩ := List.mem_map.mp hvisit
    cases hlatest : Entry.latest e.record.key (Volume.allEntries middle) with
    | none => exact absurd rfl (Entry.latest_eq_none.mp hlatest e he)
    | some e' =>
        obtain ⟨mv, hm, hkey⟩ := hp.relocates.complete _ e' hmin hmax hlatest
        exact List.mem_map.mpr ⟨mv, hm, hkey⟩
  · obtain ⟨r, hr, -⟩ := hp.relocates.moved mv hm
    rw [hvisits, Entry.getLast?_visits, hr, Option.map_some, (Entry.latest_mem hr).2]
  · obtain ⟨r, hr, ho⟩ := hp.relocates.moved mv hm
    obtain ⟨hsource, hkey⟩ := Entry.latest_mem hr
    obtain ⟨htarget, -⟩ := Entry.latest_mem ho
    refine ⟨r, hkey, h.readsAs (e := ⟨r, mv.source⟩) ?_, hp.shelved.readsAs (e := ⟨r, mv.source⟩) ?_,
      hp.shelved.readsAs (e := ⟨r, mv.target⟩) ?_⟩
    · rw [hp.line_eq]
      simp [Volume.allEntries_append, hsource]
    · simp [Volume.allEntries_append, hsource]
    · simp [Volume.allEntries_append, htarget]

theorem Shelved.fetch_mem_eq {ws : List Volume} {v : Volume} (h : Shelved s.self s.host.disk line [] current)
    (ht : Shelved t.self t.host.disk ws [] current) (hv : v ∈ current.toList ++ line)
    (hw : v ∈ current.toList ++ ws) {location : Int64}
    (hl : Location.segment? location = some v.segment.index) (part : Part) (room : Nat) :
    t.self.fetch t.host.disk location part room = s.self.fetch s.host.disk location part room := by
  rw [← List.append_nil line] at hv
  rw [← List.append_nil ws] at hw
  have hcontent := (h.kept.holds.stored v hv).content
  have hcontent' := (ht.kept.holds.stored v hw).content
  rw [fetch_of_segment hl (h.kept.holds.segment?_eq hv), fetch_of_segment hl (ht.kept.holds.segment?_eq hw)]
  exact Segment.read_congr (hcontent'.trans hcontent.symm) ..

theorem Shelved.segments_without (h : Shelved s.self s.host.disk (first ++ (middle ++ last)) [] current) :
    (s.self.segments.filter fun x => !(middle.map Volume.segment).contains x).Perm
      ((current.toList ++ (first ++ last)).map Volume.segment) := by
  have hholds := h.kept.holds.perm (perm_replace [] ..)
  rw [List.nil_append, ← List.append_assoc current.toList] at hholds
  obtain ⟨-, -, hapart⟩ := List.pairwise_append.mp hholds.apart
  have hothers : ∀ x ∈ (current.toList ++ (first ++ last)).map Volume.segment,
      !(middle.map Volume.segment).contains x := by
    intro x hx
    obtain ⟨v, hv, rfl⟩ := List.mem_map.mp hx
    rw [Bool.not_eq_true', List.contains_eq_mem, decide_eq_false_iff_not]
    intro hm
    obtain ⟨u, hu, he⟩ := List.mem_map.mp hm
    exact (hapart v hv u hu).index (congrArg Segment.index he.symm)
  have hmiddle : ∀ x ∈ middle.map Volume.segment, ¬(!(middle.map Volume.segment).contains x) := by
    simp
  refine (hholds.segments.filter _).trans (List.Perm.of_eq ?_)
  rw [List.map_append, List.filter_append, List.filter_eq_self.mpr hothers,
    List.filter_eq_nil_iff.mpr hmiddle, List.append_nil]

theorem Prepared.leaves (h : Shelved s.self s.host.disk line [] current)
    (hp : Prepared s s' line current m first middle last newest out)
    (ht : Shelved t.self t.host.disk (first ++ (out.toList ++ last)) [] current) :
    Leaves s (first.map Volume.segment) (middle.map Volume.segment) (last.map Volume.segment) newest
      m.moves (out.map Volume.segment) t := by
  have hline := hp.line_eq
  subst hline
  refine ⟨?_, ?_, ?_, ?_, fun x hx => ?_, fun mv hm => ?_, fun x hx hnot location hl part room => ?_⟩
  · rw [Option.map_eq_none_iff]
    exact hp.empty
  · rw [ht.completed_eq]
    cases out <;> simp
  · have houtput : (out.map Volume.segment).toList = out.toList.map Volume.segment := Option.toList_map ..
    have hperm : (current.toList ++ (first ++ (out.toList ++ last) ++ [])).Perm
        (out.toList ++ (current.toList ++ (first ++ last))) := by
      rw [List.append_nil]
      exact ((List.perm_append_comm_assoc ..).append_left _).trans (List.perm_append_comm_assoc ..)
    rw [houtput]
    refine (ht.kept.holds.segments.trans (hperm.map _)).trans ?_
    rw [List.map_append]
    exact h.segments_without.symm.append_left _
  · exact ht.writer.trans h.writer.symm
  · obtain ⟨o, ho, rfl⟩ := Option.map_eq_some_iff.mp hx
    obtain ⟨hmerged, hindex⟩ := hp.merged o ho
    cases ho
    refine ⟨hindex, hmerged.footer, ?_⟩
    have hrun : visitSegments t.host.disk ([o].map Volume.segment) =
        ((Volume.allEntries [o]).map fun e => (e.record.key, e.location), .ok ()) :=
      visitSegments_run fun v hv => ht.mem_line (by simp_all)
    rw [← hp.relocates.targets]
    exact hrun
  · obtain ⟨r, hr, ho⟩ := hp.relocates.moved mv hm
    obtain ⟨hsource, hkey⟩ := Entry.latest_mem hr
    obtain ⟨htarget, -⟩ := Entry.latest_mem ho
    refine ⟨r, hkey, h.readsAs (e := ⟨r, mv.source⟩) ?_, ht.readsAs (e := ⟨r, mv.target⟩) ?_⟩
    · simp [Volume.allEntries_append, hsource]
    · simp [Volume.allEntries_append, htarget]
  · obtain ⟨v, hv, rfl⟩ := h.kept.holds.mem_segments.mp hx
    have hkeeps : v ∈ current.toList ++ (first ++ (out.toList ++ last)) := by
      have hmiddle : v ∉ middle := fun hm => hnot (List.mem_map_of_mem hm)
      simp only [List.append_nil, List.mem_append] at hv ⊢
      rcases hv with hv | hv | hv | hv
      · exact .inl hv
      · exact .inr (.inl hv)
      · exact absurd hv hmiddle
      · exact .inr (.inr (.inr hv))
    rw [List.append_nil] at hv
    exact h.fetch_mem_eq ht hv hkeeps hl part room

theorem Reached.tended (hr : Reached directory name s) :
    Tended directory name s.host (some s.self) := by
  induction hr with
  | opened hd hinit => exact .opened (.vacant hd) hinit
  | @acted s s' act r hr hs _ ht ih =>
      refine .acted ih hs fun he => ?_
      subst he
      exact (hr.shelves.reopened (ht rfl) hs).1

/-- Beside another segment there is room for one with the next index. -/
theorem Reached.createSegment_run (hr : Reached directory name s) (hn : SegmentName.Plain name)
    (hmax : s.self.nextIndex.toNat < Location.maxSegments) {x : Segment} (hx : x ∈ s.self.segments) :
    ∃ y t, createSegment s = (.ok y, t) := by
  obtain ⟨n, -, hattached⟩ := hr.tended.attached
  have hlodges := (hattached _ rfl).lodges
  obtain ⟨hdirectory, hname, line, current, h⟩ := hr.shelves
  obtain ⟨n', hhoused⟩ := h.kept.housed
  -- The shelf and the directory speak of the same node.
  have hsame : n' = n := by
    have hhome := hhoused.home
    rw [hdirectory, hlodges.home] at hhome
    cases hhome
    rfl
  subst hsame
  have hindex {y : Segment} (hy : y ∈ s.self.segments) : y.index.toNat < 10 ^ 8 := by
    obtain ⟨v, hv, rfl⟩ := h.kept.holds.mem_segments.mp hy
    have hlt := (h.kept.holds.stored v hv).index_lt
    rw [Location.maxSegments_eq] at hlt
    omega
  have hnext : s.self.nextIndex.toNat < 10 ^ 8 := by
    rw [Location.maxSegments_eq] at hmax
    omega
  have hfree : ∀ g ∈ ListedFile.all name (s.host.disk.entries n'), g.index ≠ s.self.nextIndex := by
    intro g hg he
    rw [hname] at hhoused
    obtain ⟨v, hv, rfl⟩ := List.mem_map.mp ((hhoused.listed hn).mem_iff.mp hg)
    exact Nat.ne_of_lt (h.kept.holds.index_lt v hv) (congrArg UInt32.toNat he)
  obtain ⟨trail, ht, hm⟩ := hlodges.vacancy hn (List.mem_map_of_mem hx) (hindex hx) hnext hfree
  rw [← (hattached _ rfl).pathOf] at ht
  exact ⟨_, _, by simp [createSegment, Nat.not_le.mpr hmax, Disk.createFile_run ht hm]; rfl⟩

/-- A merge of a run is prepared as long as what survives fits in one segment. -/
theorem Reached.prepareMerge_run (hr : Reached directory name s) (hn : SegmentName.Plain name)
    (hmax : s.self.nextIndex.toNat < Location.maxSegments)
    (hc : s.self.completed = front ++ (run ++ back)) (hne : run ≠ [])
    (hp : ((s.self.mergeable files).map Segment.index).Perm (run.map Segment.index)) :
    ∃ newest, run.getLast?.bind Segment.footer = some newest ∧
      ((survivingSize s.host.disk newest run ≤ Location.maxOffset ∧
          ∃ line current first middle last m out s', Shelved s.self s.host.disk line [] current ∧
            front = first.map Volume.segment ∧ run = middle.map Volume.segment ∧
            back = last.map Volume.segment ∧ prepareMerge files s = (.ok (some m), s') ∧
            Prepared s s' line current m first middle last newest out) ∨
        (Location.maxOffset < survivingSize s.host.disk newest run ∧
          ∃ t, prepareMerge files s = (.error (.segmentFull s.self.nextIndex), t))) := by
  obtain ⟨line, current, h⟩ := hr.shelves.shelved
  obtain ⟨first, middle, last, w, newest, rfl, rfl, rfl, rfl, hlast, hfooter, hprepare⟩ :=
    h.prepareMerge_run hc hne hp
  have hmiddle : middle ⊆ first ++ (middle ++ last) := fun v hv => by simp [hv]
  have hno_wrap : s.self.nextIndex.toNat + 1 < 0x100000000 := by
    rw [Location.maxSegments_eq] at hmax
    omega
  refine ⟨newest, by rw [List.getLast?_map, hlast]; exact hfooter, ?_⟩
  rw [survivingSize_eq fun v hv => h.mem_line (hmiddle hv)]
  rw [Task.map_run] at hprepare
  rcases h.mergeRun_cases hlast hfooter hno_wrap with ⟨e, t, hgo, -, -, -, hwhy, -⟩ |
    ⟨m, out, s', hgo, hprepared⟩
  · rw [hgo] at hprepare
    -- There is an index left and no file has its name, so only the size can be the reason.
    rcases hwhy with ⟨u, hcreate⟩ | ⟨rfl, hsize⟩
    · have hw : w.segment ∈ s.self.segments := by
        have hmem := hmiddle (List.mem_of_getLast? hlast)
        exact h.kept.holds.mem_segments.mpr ⟨w, by simp [hmem], rfl⟩
      obtain ⟨y, u', hcreated⟩ := hr.createSegment_run hn hmax hw
      rw [hcreated] at hcreate
      cases hcreate
    · exact .inr ⟨hsize, t, hprepare⟩
  · rw [hgo] at hprepare
    refine .inl ⟨?_, _, current, first, middle, last, m, out, s', h, rfl, rfl, rfl, hprepare, hprepared⟩
    rw [← hprepared.relocates.size_eq]
    cases out with
    | none => exact Nat.zero_le _
    | some o =>
        have ho : o ∈ current.toList ++ ((first ++ ([o] ++ last)) ++ middle) := by simp
        rw [Option.toList_some, Volume.allEntries, List.flatMap_singleton, Volume.map_entries]
        exact (hprepared.shelved.kept.holds.stored o ho).size_le

/--
A merge of segments that make up a run of the completed ones, in whatever order they are given and
whatever handles come with them. If what survives fits in one segment, the merge tells its moves once
and ends well, and its output has taken the place of the run. Otherwise it fails and leaves no trace.
-/
theorem Reached.merge_of_run (hr : Reached directory name s) (hn : SegmentName.Plain name)
    (hmax : s.self.nextIndex.toNat < Location.maxSegments)
    (hc : s.self.completed = front ++ (run ++ back)) (hne : run ≠ [])
    (hp : ((s.self.mergeable files).map Segment.index).Perm (run.map Segment.index)) :
    ∃ newest, run.getLast?.bind Segment.footer = some newest ∧
      (survivingSize s.host.disk newest run ≤ Location.maxOffset →
        ∃ moves s', Tells s run newest moves s' ∧
          (∃ rest : ArchiveTask Unit, ∀ publish, merge publish files s =
            (do publish moves; rest) s') ∧
          ∀ publish, Watches publish → ∃ output t, merge publish files s = (.ok (), t) ∧
            Leaves s front run back newest moves output t) ∧
      (Location.maxOffset < survivingSize s.host.disk newest run →
        ∃ t, (∀ publish, merge publish files s = (.error (.segmentFull s.self.nextIndex), t)) ∧
          Undone s t) := by
  obtain ⟨newest, hnewest, ⟨hsize, line, current, first, middle, last, m, out, s', h, rfl, rfl, rfl,
    hprepare, hprepared⟩ | ⟨hsize, t, hprepare⟩⟩ := hr.prepareMerge_run hn hmax hc hne hp
  · refine ⟨newest, hnewest, fun _ => ⟨m.moves, s', hprepared.tells h, ⟨finishMerge m, fun publish => ?_⟩,
      fun publish hwatch => ?_⟩, fun hlt => absurd hlt (Nat.not_lt.mpr hsize)⟩
    · rw [merge, Task.bind_ok hprepare]
    · obtain ⟨t, hrun, -, ht⟩ := hprepared.merge_run hprepare hwatch
      exact ⟨out.map Volume.segment, t, hrun, hprepared.leaves h ht⟩
  · refine ⟨newest, hnewest, fun hle => absurd hsize (Nat.not_lt.mpr hle), fun _ =>
      ⟨t, fun publish => ?_, ?_⟩⟩
    · rw [merge, Task.bind_error hprepare]
    · obtain ⟨n, -, hattached⟩ := hr.tended.attached
      rcases ((hattached _ rfl).prepareMerge_undone files).run rfl hprepare with ⟨_, ⟨⟩, -⟩ | ⟨_, ⟨⟩, ht⟩
      exact ht (by simp)

/-- Two sessions share a key, and the range of the second leaves out another one. -/
theorem merge_of_run_narrowed :
    ∃ s s' t x y newest moves output, Reached [] "x" s ∧ s.self.completed = [x, y] ∧
      Tells s [x, y] newest moves s' ∧ 7 ∈ moves.map Relocation.key ∧
      merge (fun _ => pure ()) [y, x] s = (.ok (), t) ∧
      Leaves s [] [x, y] [] newest moves output t := by
  have hcheck : (scenario "x" [.start, .store ⟨7, [1]⟩, .store ⟨8, [2]⟩, .finish 0 10, .start,
      .store ⟨7, [3]⟩, .finish 0 7]).any fun s => s.self.completed |> isPair fun x y =>
        decide (s.self.nextIndex.toNat < Location.maxSegments) &&
          ((s.self.mergeable [y, x]).map Segment.index == [y.index, x.index]) &&
          y.footer.any fun f => decide (survivingSize s.host.disk f [x, y] ≤ Location.maxOffset) &&
            (f.minKey == 0 && f.maxKey == 7) && (visitSegments s.host.disk [x, y]).1.any (·.1 == 7) := by
    decide +kernel
  obtain ⟨s, hs, hgo⟩ := (Option.any_eq_true ..).mp hcheck
  have hr : Reached [] "x" s := Run.reached (run_of_scenario hs) (by decide)
  obtain ⟨x, y, hc, hgo⟩ := exists_of_isPair hgo
  simp only [Bool.and_eq_true, beq_iff_eq, Option.any_eq_true, decide_eq_true_eq, List.any_eq_true]
    at hgo
  obtain ⟨⟨hmax, hfiles⟩, f, hf, ⟨hsize, hmin, hmaxKey⟩, visit, hvisit, hkey⟩ := hgo
  have hperm : ((s.self.mergeable [y, x]).map Segment.index).Perm ([x, y].map Segment.index) := by
    rw [hfiles]
    exact List.Perm.swap ..
  have hcompleted : s.self.completed = [] ++ ([x, y] ++ []) := hc
  obtain ⟨newest, hnewest, hfits, -⟩ :=
    Reached.merge_of_run hr (by decide) hmax hcompleted (by simp) hperm
  obtain rfl : newest = f := Option.some.inj (hnewest.symm.trans hf)
  obtain ⟨moves, s', htells, -, hmerge⟩ := hfits hsize
  obtain ⟨output, t, hrun, hleaves⟩ := hmerge _ watches_pure
  refine ⟨s, s', t, x, y, newest, moves, output, hr, hc, htells, (htells.keys 7).mpr ⟨?_, ?_⟩, hrun,
    hleaves⟩
  · rw [hmin, hmaxKey]
    decide
  · exact ⟨visit, hvisit, hkey⟩

section Full

variable {v : Volume} {rs : List Record}

theorem Reached.stores (hr : Reached directory name s)
    (h : Shelved s.self s.host.disk line [] (some v))
    (hno_wrap : s.self.nextIndex.toNat + 1 < 0x100000000) (hfits : ∀ r ∈ rs, r.Fits)
    (hroom : v.dataSize + Record.sizeAll rs ≤ Location.maxOffset) :
    ∃ t, Reached directory name t ∧ t.self.nextIndex.toNat = s.self.nextIndex.toNat ∧
      Shelved t.self t.host.disk line [] (some { v with records := v.records ++ rs }) := by
  induction rs generalizing s v with
  | nil =>
      refine ⟨s, hr, rfl, ?_⟩
      rw [List.append_nil]
      exact h
  | cons r rs ih =>
      rw [Record.sizeAll] at hroom
      rcases h.store_cases r with ⟨e, -, -, hfull⟩ | ⟨u, s', hu, -, -, hgo, hf, hs'⟩
      · have hover := hfull v rfl (hfits r (List.mem_cons_self ..))
        omega
      · cases hu
        have hrun : (Action.store r).run s = (.ok (), s') := by
          simp [Action.run, hgo]
        have hr' := hr.acted hrun hno_wrap (by simp)
        have hnext := hf.nextIndex
        obtain ⟨t, hreached, hsame, ht⟩ := ih hr' hs' (by omega)
          (fun r' hr' => hfits r' (List.mem_cons_of_mem _ hr'))
          (by rw [Volume.dataSize_push]; omega)
        refine ⟨t, hreached, by omega, ?_⟩
        rwa [Volume.push, List.append_assoc] at ht

theorem Reached.session (hr : Reached directory name s) (hn : SegmentName.Plain name)
    (h : Shelved s.self s.host.disk line [] none) (hne : line ≠ [])
    (hmax : s.self.nextIndex.toNat < Location.maxSegments) (hfits : ∀ r ∈ rs, r.Fits)
    (hroom : Record.sizeAll rs ≤ Location.maxOffset) (minKey maxKey : Int64) :
    ∃ t w f, Reached directory name t ∧ t.self.nextIndex.toNat = s.self.nextIndex.toNat + 1 ∧
      Shelved t.self t.host.disk (line ++ [w]) [] none ∧ w.records = rs ∧
      w.segment.footer = some f ∧ f.minKey = minKey ∧ f.maxKey = maxKey := by
  have hno_wrap : s.self.nextIndex.toNat + 1 + 1 < 0x100000000 := by
    rw [Location.maxSegments_eq] at hmax
    omega
  obtain ⟨u, hu⟩ := List.exists_mem_of_ne_nil _ hne
  have hx : u.segment ∈ s.self.segments := h.kept.holds.mem_segments.mpr ⟨u, by simp [hu], rfl⟩
  obtain ⟨y, s0, hcreate⟩ := hr.createSegment_run hn hmax hx
  rcases h.startWriting_cases (by omega) with ⟨e, s1, hgo, -⟩ | ⟨v, s1, hgo, hempty, -, -, hf, hs1⟩
  · have hidle : s.self.writer = none := h.writer
    simp [startWriting, hidle, hcreate] at hgo
    cases hgo
  · have hstart : Action.start.run s = (.ok (), s1) := hgo
    have hr1 := hr.acted hstart (by omega) (by simp)
    have hnext := hf.nextIndex
    have hzero : v.dataSize = 0 := by rw [Volume.dataSize, hempty, Record.sizeAll]
    obtain ⟨s2, hr2, hsame, hs2⟩ := hr1.stores hs1 (by omega) hfits (by omega)
    obtain ⟨f, t, hend, hmin, hmaxKey, -, hf', ht⟩ := hs2.endWriting_run minKey maxKey
    have hfinish : (Action.finish minKey maxKey).run s2 = (.ok (), t) := hend
    have hr3 := hr2.acted hfinish (by omega) (by simp)
    have hlast := hf'.nextIndex
    refine ⟨t, _, f, hr3, by omega, ht, ?_, rfl, hmin, hmaxKey⟩
    rw [Volume.finished, hempty, List.nil_append]

theorem survivingSize_of_nodup {vs : List Volume} {minKey maxKey : Int64}
    (hnodup : (((Volume.allEntries vs).map Entry.record).map Record.key).Nodup)
    (hrange : ∀ r ∈ (Volume.allEntries vs).map Entry.record, minKey ≤ r.key ∧ r.key ≤ maxKey) :
    Volume.survivingSize minKey maxKey vs =
      Record.sizeAll ((Volume.allEntries vs).map Entry.record) := by
  refine Record.sizeAll_perm (Record.perm_of_filter fun key => ?_)
  rw [Volume.filter_surviving, Record.filter_of_nodup hnodup]
  split
  · rfl
  · rename_i hout
    cases hlast : Entry.latestRecord key ((Volume.allEntries vs).map Entry.record) with
    | none => rfl
    | some r =>
        obtain ⟨hr, hk⟩ := List.mem_filter.mp (List.mem_of_getLast? hlast)
        exact absurd (beq_iff_eq.mp hk ▸ hrange r hr) hout

def bulk (data : Bytes) (first n : Nat) : List Record :=
  (List.range' first n).map fun i => ⟨Int64.ofNat i, data⟩

theorem bulk_append (data : Bytes) (first n k : Nat) :
    bulk data first n ++ bulk data (first + n) k = bulk data first (n + k) := by
  rw [bulk, bulk, bulk, ← List.map_append, List.range'_append_1]

theorem bulk_fits {data : Bytes} (hdata : data.length < 0x100000000) {first n : Nat} :
    ∀ r ∈ bulk data first n, r.Fits := by
  intro r hr
  obtain ⟨i, -, rfl⟩ := List.mem_map.mp hr
  exact hdata

theorem sizeAll_bulk (data : Bytes) (first n : Nat) :
    Record.sizeAll (bulk data first n) = n * (Record.headerSize + data.length) := by
  induction n generalizing first with
  | zero => simp [bulk, Record.sizeAll]
  | succ n ih =>
      have hrest := ih (first + 1)
      rw [bulk] at hrest ⊢
      rw [List.range'_succ, List.map_cons, Record.sizeAll, hrest, Record.size, Nat.succ_mul]
      exact Nat.add_comm ..

theorem toInt_key_bulk {data : Bytes} {n : Nat} (hn : n < 2 ^ 63) {r : Record}
    (hr : r ∈ bulk data 0 n) : 0 ≤ r.key.toInt ∧ r.key.toInt < n := by
  obtain ⟨i, hi, rfl⟩ := List.mem_map.mp hr
  obtain ⟨-, hlt⟩ := List.mem_range'_1.mp hi
  rw [Int64.toInt_ofNat_of_lt (by omega)]
  omega

theorem nodup_keys_bulk (data : Bytes) {n : Nat} (hn : n < 2 ^ 63) :
    ((bulk data 0 n).map Record.key).Nodup := by
  rw [bulk, List.map_map]
  refine List.pairwise_map.mpr (List.Pairwise.imp_of_mem (fun {i j} hi hj hne he => hne ?_)
    (List.nodup_range' 1))
  obtain ⟨-, hi⟩ := List.mem_range'_1.mp hi
  obtain ⟨-, hj⟩ := List.mem_range'_1.mp hj
  have hsame := congrArg Int64.toInt he
  simp only [Function.comp_apply] at hsame
  rw [Int64.toInt_ofNat_of_lt (by omega), Int64.toInt_ofNat_of_lt (by omega)] at hsame
  exact Int.ofNat.inj hsame

theorem survivingSize_bulk {vs : List Volume} {data : Bytes} {n : Nat} {minKey maxKey : Int64}
    (hn : n < 2 ^ 63) (hrecords : (Volume.allEntries vs).map Entry.record = bulk data 0 n)
    (hmin : minKey.toInt ≤ 0) (hmax : n ≤ maxKey.toInt) :
    Volume.survivingSize minKey maxKey vs = n * (Record.headerSize + data.length) := by
  rw [survivingSize_of_nodup, hrecords, sizeAll_bulk]
  · rw [hrecords]
    exact nodup_keys_bulk data hn
  · intro r hr
    rw [hrecords] at hr
    obtain ⟨hge, hlt⟩ := toInt_key_bulk hn hr
    rw [Int64.le_iff_toInt_le, Int64.le_iff_toInt_le]
    omega

theorem Reached.merge_overfull {first middle : List Volume} {w : Volume} {newest : Footer}
    (hr : Reached directory name s) (hn : SegmentName.Plain name)
    (hmax : s.self.nextIndex.toNat < Location.maxSegments)
    (h : Shelved s.self s.host.disk (first ++ middle) [] current) (hlast : middle.getLast? = some w)
    (hfooter : w.segment.footer = some newest)
    (hfull : Location.maxOffset < Volume.survivingSize newest.minKey newest.maxKey middle) :
    ∃ front run, s.self.completed = front ++ run ∧ run ≠ [] ∧ s.self.mergeable run = run ∧
      ∃ t, ∀ publish, merge publish run s = (.error (.segmentFull s.self.nextIndex), t) := by
  have hcompleted : s.self.completed =
      first.map Volume.segment ++ (middle.map Volume.segment ++ []) := by
    rw [h.completed_eq, List.append_nil, List.map_append]
  have hne : middle.map Volume.segment ≠ [] := by
    rintro he
    rw [List.map_eq_nil_iff.mp he] at hlast
    cases hlast
  have hall : s.self.mergeable (middle.map Volume.segment) = middle.map Volume.segment :=
    h.mergeable_eq (by simp)
  obtain ⟨newest', hnewest, hcases⟩ :=
    hr.prepareMerge_run hn hmax hcompleted hne (.of_eq (congrArg _ hall))
  have hsame : newest' = newest := by
    rw [List.getLast?_map, hlast] at hnewest
    exact Option.some.inj (hnewest.symm.trans hfooter)
  rw [survivingSize_eq fun v hv => h.mem_line (List.mem_append_right _ hv), hsame] at hcases
  rw [List.append_nil] at hcompleted
  refine ⟨_, _, hcompleted, hne, hall, ?_⟩
  rcases hcases with ⟨hle, -⟩ | ⟨-, t, hgo⟩
  · omega
  · refine ⟨t, fun publish => ?_⟩
    rw [merge, Task.bind_error hgo]

theorem exists_begun :
    ∃ s line, Reached [] "x" s ∧ s.self.nextIndex.toNat = 1 ∧ line ≠ [] ∧
      Shelved s.self s.host.disk line [] none := by
  have hcheck : (scenario "x" [.start, .finish 0 1000]).any fun s =>
      decide (s.self.nextIndex.toNat = 1) && decide (s.self.completed.length = 1) &&
        s.self.writer.isNone := by
    decide +kernel
  obtain ⟨s, hs, hgo⟩ := (Option.any_eq_true ..).mp hcheck
  simp only [Bool.and_eq_true, decide_eq_true_eq] at hgo
  obtain ⟨⟨hnext, hone⟩, hidle⟩ := hgo
  have hr : Reached [] "x" s := Run.reached (run_of_scenario hs) (by decide)
  obtain ⟨line, current, h⟩ := hr.shelves.shelved
  obtain rfl : current = none := by
    have hw := h.writer
    cases current with
    | none => rfl
    | some v => simp [hw] at hidle
  refine ⟨s, line, hr, hnext, ?_, h⟩
  rintro rfl
  simp [h.completed_eq] at hone

theorem merge_run_full :
    ∃ s t, Reached [] "x" s ∧ s.self.nextIndex.toNat < Location.maxSegments ∧
      ∃ front run, s.self.completed = front ++ run ∧ run ≠ [] ∧ s.self.mergeable run = run ∧
        ∀ publish, merge publish run s = (.error (.segmentFull s.self.nextIndex), t) := by
  obtain ⟨s0, line, hr0, hnext, hline, h0⟩ := exists_begun
  have hmax (k : Nat) (hk : k < 100) : k < Location.maxSegments := by
    rw [Location.maxSegments_eq]
    omega
  -- A record with its header takes four gigabytes, and so 256 of them fill a segment.
  obtain ⟨data, hdata⟩ : ∃ data : Bytes, data.length = 0xfffffff4 :=
    ⟨List.replicate _ 0, List.length_replicate⟩
  have hheader : Record.headerSize + data.length = 0x100000000 := by
    rw [hdata, Record.headerSize]
  have hsize (first n : Nat) : Record.sizeAll (bulk data first n) = n * 0x100000000 := by
    rw [sizeAll_bulk, hheader]
  have hfits : data.length < 0x100000000 := by omega
  have hroom (n : Nat) (hn : n ≤ 256) (first : Nat) :
      Record.sizeAll (bulk data first n) ≤ Location.maxOffset := by
    rw [hsize, Location.maxOffset_eq]
    omega
  obtain ⟨s1, v1, f1, hr1, hnext1, h1, hrecords1, hfooter1, -, -⟩ := hr0.session (by decide) h0 hline
    (hmax _ (by omega)) (bulk_fits hfits) (hroom 256 (by omega) 0) 0 1000
  obtain ⟨s2, v2, f2, hr2, hnext2, h2, hrecords2, hfooter2, hmin, hmaxKey⟩ := hr1.session (by decide) h1
    (by simp) (hmax _ (by omega)) (bulk_fits hfits) (hroom 1 (by omega) 256) 0 1000
  rw [List.append_assoc] at h2
  have hrecords : (Volume.allEntries ([v1] ++ [v2])).map Entry.record = bulk data 0 257 := by
    rw [Volume.allEntries_append, List.map_append, Volume.allEntries, Volume.allEntries,
      List.flatMap_singleton, List.flatMap_singleton, Volume.map_entries, Volume.map_entries, hrecords1,
      hrecords2]
    exact bulk_append data 0 256 1
  have hfull : Location.maxOffset < Volume.survivingSize f2.minKey f2.maxKey ([v1] ++ [v2]) := by
    rw [survivingSize_bulk (by decide) hrecords (by rw [hmin]; decide) (by rw [hmaxKey]; decide), hheader,
      Location.maxOffset_eq]
    decide
  obtain ⟨front, run, hcompleted, hne, hall, t, hgo⟩ :=
    hr2.merge_overfull (by decide) (hmax _ (by omega)) h2 rfl hfooter2 hfull
  exact ⟨s2, t, hr2, hmax _ (by omega), front, run, hcompleted, hne, hall, hgo⟩

end Full

def blocked : Option (Hosted Archive) :=
  (scenario "./x" [.start, .store ⟨7, [1]⟩, .finish 0 10, .start, .store ⟨8, [2]⟩, .finish 0 10]).bind
    fun s => perform [.merge s.self.completed, .reopen, .start, .store ⟨7, [3]⟩, .finish 0 10, .start,
      .store ⟨8, [4]⟩, .finish 0 10] s

/--
There is an index left, but the file of that index is already there, or what survives is too much for
one segment.
-/
theorem merge_of_run_blocked :
    (∃ s t h, Run [] "./x" s h ∧ s.self.nextIndex.toNat < Location.maxSegments ∧
      s.self.completed ≠ [] ∧ s.self.mergeable s.self.completed = s.self.completed ∧
      ∀ publish, merge publish s.self.completed s = (.error (.disk .alreadyExists), t)) ∧
    ∃ s t, Reached [] "x" s ∧ s.self.nextIndex.toNat < Location.maxSegments ∧
      ∃ front run, s.self.completed = front ++ run ∧ run ≠ [] ∧ s.self.mergeable run = run ∧
        ∀ publish, merge publish run s = (.error (.segmentFull s.self.nextIndex), t) := by
  refine ⟨?_, merge_run_full⟩
  have hcheck : blocked.any fun s => decide (s.self.nextIndex.toNat < Location.maxSegments) &&
      decide (s.self.completed ≠ [] ∧ s.self.mergeable s.self.completed = s.self.completed) &&
      match (prepareMerge s.self.completed s).1 with
      | .error e => e == .disk .alreadyExists
      | .ok _ => false := by
    decide +kernel
  obtain ⟨s, hs, hgo⟩ := (Option.any_eq_true ..).mp hcheck
  obtain ⟨s0, hs0, hs⟩ := Option.bind_eq_some_iff.mp hs
  simp only [Bool.and_eq_true, decide_eq_true_eq] at hgo
  obtain ⟨⟨hmax, hne, hall⟩, hgo⟩ := hgo
  split at hgo
  · rename_i e he
    rcases hrun : prepareMerge s.self.completed s with ⟨r, t⟩
    rw [hrun] at he
    cases he
    refine ⟨s, t, _, (run_of_scenario hs0).perform hs, hmax, hne, hall, fun publish => ?_⟩
    rw [merge, Task.bind_error hrun, beq_iff_eq.mp hgo]
  · cases hgo

end Archive

end MeteredStorage
