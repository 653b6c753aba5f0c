import MeteredStorage.Proofs.Archive.Recovery

namespace MeteredStorage

inductive Archive.Action
  | start
  | store (r : Record)
  | finish (minKey maxKey : Int64)
  | merge (files : List Segment)
  | reopen
  | wait (clock : UInt64)
  deriving DecidableEq

structure History where
  /-- The records of the sessions that have ended, oldest first. -/
  stored : List Record := []
  /-- The records of the open session. -/
  pending : List Record := []
  /-- The ranges of keys with which sessions have ended. -/
  ranges : List (Int64 × Int64) := []

namespace History

def Covers (h : History) (key : Int64) : Prop := ∀ r ∈ h.ranges, r.1 ≤ key ∧ key ≤ r.2

def after (h : History) : Archive.Action → History
  | .store r => { h with pending := h.pending ++ [r] }
  | .finish minKey maxKey => ⟨h.stored ++ h.pending, [], h.ranges ++ [(minKey, maxKey)]⟩
  | .reopen => { h with pending := [] }
  | _ => h

theorem after_store (h : History) (r : Record) :
    h.after (.store r) = { h with pending := h.pending ++ [r] } := rfl

theorem after_finish (h : History) (minKey maxKey : Int64) :
    h.after (.finish minKey maxKey) =
      ⟨h.stored ++ h.pending, [], h.ranges ++ [(minKey, maxKey)]⟩ := rfl

theorem after_reopen (h : History) : h.after .reopen = { h with pending := [] } := rfl

end History

namespace Archive

def Action.run : Action → ArchiveTask Unit
  | start => startWriting
  | store r => do let _ ← Archive.store r
  | finish minKey maxKey => endWriting minKey maxKey
  | merge files => Archive.merge (fun _ => pure ()) files
  | reopen => Archive.reopen
  | wait clock => modify fun s => { s with host := { s.host with clock := clock } }

/--
A run from an empty directory, with its history. Steps may fail, but runs in which an index was refused
are left out; so are those in which a reopening dropped a session that had written what looks like a
completed segment.
-/
inductive Run (directory : Path) (name : String) : Hosted Archive → History → Prop
  | opened {host host' : Host} {a : Archive} (hd : host.disk.Vacant directory)
      (h : init directory name host = (.ok a, host')) : Run directory name ⟨a, host'⟩ {}
  | succeeded {s s' : Hosted Archive} {h : History} {act : Action} (hr : Run directory name s h)
      (hs : act.run s = (.ok (), s')) (ht : act = .reopen → LeavesTorn s) :
      Run directory name s' (h.after act)
  | failed {s s' : Hosted Archive} {h : History} {act : Action} {e : ArchiveError}
      (hr : Run directory name s h) (hs : act.run s = (.error e, s')) (hn : act ≠ .reopen)
      (he : e ≠ .indicesExhausted) : Run directory name s' h

/-- The volumes of an archive tell its history. -/
structure Tracks (s : Hosted Archive) (h : History) (line : List Volume) (current : Option Volume) :
    Prop where
  shelved : Shelved s.self s.host.disk line [] current
  room : s.self.nextIndex.toNat ≤ Location.maxSegments
  pending : (current.map Volume.records).getD [] = h.pending
  ranges : ∀ v ∈ line, ∀ f, v.segment.footer = some f → ∀ key, h.Covers key →
    f.minKey ≤ key ∧ key ≤ f.maxKey
  latest : ∀ key, h.Covers key → (Entry.latest key (Volume.allEntries line)).map Entry.record =
    Entry.latestRecord key h.stored

variable {directory : Path} {name : String} {s s' : Hosted Archive} {h : History}
  {line line' : List Volume} {current : Option Volume}

theorem Tracks.no_wrap (ht : Tracks s h line current) :
    s.self.nextIndex.toNat + 1 < 0x100000000 := by
  have hroom := ht.room
  rw [Location.maxSegments_eq] at hroom
  omega

theorem Tracks.same (ht : Tracks s h line current)
    (hs : Shelved s'.self s'.host.disk line [] current)
    (hroom : s'.self.nextIndex.toNat ≤ Location.maxSegments) : Tracks s' h line current :=
  ⟨hs, hroom, ht.pending, ht.ranges, ht.latest⟩

theorem Tracks.relined (ht : Tracks s h line current)
    (hs : Shelved s'.self s'.host.disk line' [] current)
    (hroom : s'.self.nextIndex.toNat ≤ Location.maxSegments)
    (hranges : ∀ v ∈ line', ∀ f, v.segment.footer = some f → ∀ key, h.Covers key →
      f.minKey ≤ key ∧ key ≤ f.maxKey)
    (hlatest : ∀ key, h.Covers key →
      (Entry.latest key (Volume.allEntries line')).map Entry.record =
        (Entry.latest key (Volume.allEntries line)).map Entry.record) : Tracks s' h line' current :=
  ⟨hs, hroom, ht.pending, hranges, fun key hk => (hlatest key hk).trans (ht.latest key hk)⟩

theorem Follows.room (hf : Follows 1 s.self s'.self)
    (hmax : s.self.nextIndex.toNat < Location.maxSegments) :
    s'.self.nextIndex.toNat ≤ Location.maxSegments := by
  rw [hf.nextIndex]
  exact hmax

theorem Tracks.start (ht : Tracks s h line current) {r : Except ArchiveError Unit}
    (hrun : startWriting s = (r, s')) (he : r ≠ .error .indicesExhausted) :
    ∃ current', s'.self.name = s.self.name ∧ Tracks s' h line current' := by
  cases current with
  | some v =>
      have hw : s.self.writer = some v.writer := ht.shelved.writer
      have hgo : startWriting s = (.error .sessionActive, s) := by simp [startWriting, hw]
      rw [hgo] at hrun
      cases hrun
      exact ⟨some v, rfl, ht⟩
  | none =>
      rcases ht.shelved.startWriting_cases ht.no_wrap with ⟨e, s1, hgo, hf, hs, hex⟩ |
        ⟨v, s1, hgo, hempty, -, hmax, hf, hs⟩
      · rw [hgo] at hrun
        cases hrun
        refine ⟨none, hf.name, ht.same hs (hf.room (Nat.lt_of_not_le fun hle => he ?_))⟩
        rw [hex.mpr hle]
      · rw [hgo] at hrun
        cases hrun
        refine ⟨some v, hf.name, hs, hf.room hmax, ?_, ht.ranges, ht.latest⟩
        have hp := ht.pending
        rw [Option.map_some, Option.getD_some, hempty]
        exact hp

theorem Tracks.store_ok (ht : Tracks s h line current) {r : Record} {location : Int64}
    (hrun : store r s = (.ok location, s')) :
    ∃ current', s'.self.name = s.self.name ∧ Tracks s' (h.after (.store r)) line current' := by
  rcases ht.shelved.store_cases r with ⟨e, hgo, -⟩ | ⟨v, s1, rfl, -, -, hgo, hf, hs⟩
  · rw [hgo] at hrun
    cases hrun
  · rw [hgo] at hrun
    cases hrun
    refine ⟨some (v.push r), hf.name, hs, hf.nextIndex ▸ ht.room, ?_, ht.ranges, ht.latest⟩
    have hp : v.records = h.pending := ht.pending
    simp [Volume.push, hp, History.after_store]

theorem Tracks.store_error (ht : Tracks s h line current) {r : Record} {e : ArchiveError}
    (hrun : store r s = (.error e, s')) : s' = s := by
  rcases ht.shelved.store_cases r with ⟨e', hgo, -⟩ | ⟨v, s1, -, -, -, hgo, -⟩
  · rw [hgo] at hrun
    cases hrun
    rfl
  · rw [hgo] at hrun
    cases hrun

theorem Tracks.finish_error (ht : Tracks s h line current) {minKey maxKey : Int64} {e : ArchiveError}
    (hrun : endWriting minKey maxKey s = (.error e, s')) : s' = s := by
  cases current with
  | none =>
      have hw : s.self.writer = none := ht.shelved.writer
      have hgo : endWriting minKey maxKey s = (.error .noSession, s) := by simp [endWriting, hw]
      rw [hgo] at hrun
      cases hrun
      rfl
  | some v =>
      obtain ⟨f, s1, hgo, -⟩ := ht.shelved.endWriting_run minKey maxKey
      rw [hgo] at hrun
      cases hrun

theorem Tracks.finish_ok (ht : Tracks s h line current) {minKey maxKey : Int64}
    (hrun : endWriting minKey maxKey s = (.ok (), s')) :
    ∃ line', s'.self.name = s.self.name ∧ Tracks s' (h.after (.finish minKey maxKey)) line' none := by
  cases current with
  | none =>
      have hw : s.self.writer = none := ht.shelved.writer
      have hgo : endWriting minKey maxKey s = (.error .noSession, s) := by simp [endWriting, hw]
      rw [hgo] at hrun
      cases hrun
  | some v =>
      obtain ⟨f, s1, hgo, hmin, hmax, -, hf, hs⟩ := ht.shelved.endWriting_run minKey maxKey
      rw [hgo] at hrun
      cases hrun
      have hcovers {key : Int64} (hk : (h.after (.finish minKey maxKey)).Covers key) :
          h.Covers key ∧ minKey ≤ key ∧ key ≤ maxKey :=
        ⟨fun r hr => hk r (List.mem_append_left _ hr),
          hk (minKey, maxKey) (List.mem_append_right _ (List.mem_singleton_self _))⟩
      refine ⟨line ++ [v.finished f], hf.name, hs, hf.nextIndex ▸ ht.room, rfl, ?_, ?_⟩
      · intro u hu g hg key hk
        rcases List.mem_append.mp hu with hu | hu
        · exact ht.ranges u hu g hg key (hcovers hk).1
        · rw [List.mem_singleton.mp hu] at hg
          cases hg
          rw [hmin, hmax]
          exact (hcovers hk).2
      · intro key hk
        have hp : v.records = h.pending := ht.pending
        have hlast : Volume.allEntries [v.finished f] = v.entries := by
          simp [Volume.allEntries, Volume.entries_finished]
        rw [Volume.allEntries_append, Entry.latest_append, hlast, History.after_finish,
          Entry.latestRecord_append, Option.map_or, Entry.map_latest, Volume.map_entries,
          ht.latest key (hcovers hk).1, hp]

/-- The line after a merge tells the same as before. -/
theorem Tracks.merged (ht : Tracks s h line current) {m : Merge} {front run back : List Volume}
    {newest : Footer} {out : Option Volume}
    (hp : Prepared s s' line current m front run back newest out) {s'' : Hosted Archive}
    (hf : Follows 0 s'.self s''.self)
    (hs : Shelved s''.self s''.host.disk (front ++ (out.toList ++ back)) [] current) :
    Tracks s'' h (front ++ (out.toList ++ back)) current := by
  obtain ⟨w, hlast, hw⟩ := hp.last
  have hwline : w ∈ line := by
    rw [hp.line_eq]
    exact List.mem_append_right _ (List.mem_append_left _ (List.mem_of_getLast? hlast))
  refine ht.relined hs ?_ ?_ ?_
  · rw [hf.nextIndex]
    exact hp.follows.room hp.room
  · intro v hv f hfooter key hk
    rcases List.mem_append.mp hv with hv | hv
    · exact ht.ranges v (by rw [hp.line_eq]; exact List.mem_append_left _ hv) f hfooter key hk
    · rcases List.mem_append.mp hv with hv | hv
      · obtain ⟨g, hg, -, hmin, hmax⟩ := (hp.merged v (Option.mem_toList.mp hv)).1.footer
        rw [hg] at hfooter
        cases hfooter
        rw [hmin, hmax]
        exact ht.ranges w hwline newest hw key hk
      · refine ht.ranges v ?_ f hfooter key hk
        rw [hp.line_eq]
        exact List.mem_append_right _ (List.mem_append_right _ hv)
  · intro key hk
    obtain ⟨hmin, hmax⟩ := ht.ranges w hwline newest hw key hk
    rw [hp.line_eq]
    simp only [Volume.allEntries_append, Entry.latest_append, Option.map_or,
      hp.relocates.latest_eq hmin hmax]

theorem Tracks.merge_cases (ht : Tracks s h line current) (files : List Segment)
    {r : Except ArchiveError Unit} (hrun : merge (fun _ => pure ()) files s = (r, s'))
    (he : r ≠ .error .indicesExhausted) :
    ∃ line', s'.self.name = s.self.name ∧ Tracks s' h line' current := by
  rcases ht.shelved.prepareMerge_cases ht.no_wrap files with hgo | hgo | ⟨e, s1, hgo, hf, hs, hex⟩ |
    ⟨m, s1, front, run, back, newest, out, hgo, hp⟩
  · rw [merge, Task.bind_ok hgo] at hrun
    cases hrun
    exact ⟨line, rfl, ht⟩
  · rw [merge, Task.bind_error hgo] at hrun
    cases hrun
    exact ⟨line, rfl, ht⟩
  · rw [merge, Task.bind_error hgo] at hrun
    cases hrun
    refine ⟨line, hf.name, ht.same hs (hf.room (Nat.lt_of_not_le fun hle => he ?_))⟩
    rw [hex.mpr hle]
  · obtain ⟨s2, hfinish, hf, hs⟩ := hp.finishMerge_run
    have hend : merge (fun _ => pure ()) files s = (.ok (), s2) := by
      rw [merge, Task.bind_ok hgo]
      simp only [Task.bind_run, Task.pure_run, hfinish]
    rw [hend] at hrun
    cases hrun
    exact ⟨_, hf.name.trans hp.follows.name, ht.merged hp hf hs⟩

theorem Tracks.reopen_ok (ht : Tracks s h line current) (hn : SegmentName.Plain s.self.name)
    (htorn : LeavesTorn s) :
    ∃ s' line', reopen s = (.ok (), s') ∧ s'.self.name = s.self.name ∧
      Tracks s' (h.after .reopen) line' none := by
  obtain ⟨s1, line', hgo, -, hname, hnext, hline, hs⟩ := ht.shelved.reopen_run hn htorn
  refine ⟨s1, line', hgo, hname, hs, hnext, rfl, ?_, ?_⟩
  · intro v hv f hf
    obtain ⟨u, hu, hfooter⟩ := exists_footer_of_shut hline hv hf
    exact ht.ranges u hu f hfooter
  · rw [allEntries_of_shut hline]
    exact ht.latest

theorem Run.tracks (hr : Run directory name s h) (hn : SegmentName.Plain name) :
    s.self.name = name ∧ ∃ line current, Tracks s h line current := by
  induction hr with
  | opened hd hinit =>
      obtain ⟨a, host', hgo, -, hname, hnext, hs⟩ := init_of_vacant hd name
      rw [hgo] at hinit
      cases hinit
      exact ⟨hname, [], none, hs, hnext, rfl, by simp, fun key _ => rfl⟩
  | succeeded _ hs htorn ih =>
      rename_i s s' h act _
      obtain ⟨hname, line, current, ht⟩ := ih
      cases act with
      | start =>
          obtain ⟨current', hn', ht'⟩ := ht.start hs (by simp)
          exact ⟨hn'.trans hname, line, current', ht'⟩
      | store r =>
          rcases Task.bind_eq hs with ⟨location, s1, hgo, hrest⟩ | ⟨e, -, he⟩
          · cases hrest
            obtain ⟨current', hn', ht'⟩ := ht.store_ok hgo
            exact ⟨hn'.trans hname, line, current', ht'⟩
          · cases he
      | finish minKey maxKey =>
          obtain ⟨line', hn', ht'⟩ := ht.finish_ok hs
          exact ⟨hn'.trans hname, line', none, ht'⟩
      | merge files =>
          obtain ⟨line', hn', ht'⟩ := ht.merge_cases files hs (by simp)
          exact ⟨hn'.trans hname, line', current, ht'⟩
      | reopen =>
          obtain ⟨s1, line', hgo, hn', ht'⟩ := ht.reopen_ok (hname ▸ hn) (htorn rfl)
          have hgo' : Archive.reopen s = (.ok (), s') := hs
          rw [hgo] at hgo'
          cases hgo'
          exact ⟨hn'.trans hname, line', none, ht'⟩
      | wait clock =>
          cases hs
          exact ⟨hname, line, current, ht.same ht.shelved ht.room⟩
  | failed _ hs hnot he ih =>
      rename_i s s' h act e _
      obtain ⟨hname, line, current, ht⟩ := ih
      cases act with
      | start =>
          obtain ⟨current', hn', ht'⟩ := ht.start hs fun hex => he (Except.error.inj hex)
          exact ⟨hn'.trans hname, line, current', ht'⟩
      | store r =>
          rcases Task.bind_eq hs with ⟨location, s1, hgo, hrest⟩ | ⟨e', hgo, -⟩
          · cases hrest
          · rw [ht.store_error hgo]
            exact ⟨hname, line, current, ht⟩
      | finish minKey maxKey =>
          rw [ht.finish_error hs]
          exact ⟨hname, line, current, ht⟩
      | merge files =>
          obtain ⟨line', hn', ht'⟩ := ht.merge_cases files hs fun hex => he (Except.error.inj hex)
          exact ⟨hn'.trans hname, line', current, ht'⟩
      | reopen => exact absurd rfl hnot
      | wait clock => cases hs

/-- A run can always go on with a reopening. -/
theorem Run.reopens (hr : Run directory name s h) (hn : SegmentName.Plain name) (ht : LeavesTorn s) :
    ∃ s', reopen s = (.ok (), s') ∧ Run directory name s' (h.after .reopen) := by
  obtain ⟨hname, line, current, htracks⟩ := hr.tracks hn
  obtain ⟨s', -, hgo, -⟩ := htracks.reopen_ok (hname ▸ hn) ht
  exact ⟨s', hgo, hr.succeeded (show Action.reopen.run s = _ from hgo) fun _ => ht⟩

def perform : List Action → Hosted Archive → Option (Hosted Archive)
  | [], s => some s
  | act :: acts, s =>
    if act = .reopen ∧ s.self.writer.isSome then none
    else
      match act.run s with
      | (.ok (), s') => perform acts s'
      | (.error _, _) => none

theorem Run.perform {acts : List Action} (hr : Run directory name s h)
    (hp : Archive.perform acts s = some s') : Run directory name s' (acts.foldl History.after h) := by
  induction acts generalizing s h with
  | nil =>
      cases hp
      exact hr
  | cons act acts ih =>
      rw [Archive.perform] at hp
      split at hp
      · cases hp
      · rename_i hidle
        split at hp
        · rename_i s1 hgo
          refine ih (hr.succeeded hgo fun hre w hw => ?_) hp
          rw [Option.mem_def.mp hw] at hidle
          exact absurd ⟨hre, rfl⟩ hidle
        · cases hp

def scenario (name : String) (acts : List Action) : Option (Hosted Archive) :=
  match init [] name ⟨{}, 0, []⟩ with
  | (.ok a, host) => perform acts ⟨a, host⟩
  | (.error _, _) => none

theorem vacant_root : ({} : Disk).Vacant [] := by
  refine ⟨⟨Nat.one_pos, fun p n hn => ?_⟩, 0, rfl, rfl⟩
  obtain ⟨number, file⟩ := p
  cases number with
  | zero => cases hn
  | succ number => simp [Disk.node?, Disk.entries] at hn

theorem run_of_scenario {acts : List Action} (hs : scenario name acts = some s) :
    Run [] name s (acts.foldl History.after {}) := by
  unfold scenario at hs
  split at hs
  · rename_i a host hinit
    exact (Run.opened vacant_root hinit).perform hs
  · cases hs

theorem readInto_run {location : Int64} {part : Part} {buffer bytes : Bytes}
    (hf : s.self.fetch s.host.disk location part buffer.length = .ok bytes) :
    (readInto location part buffer s).1 = .ok (bytes.length, Bytes.overlay 0 bytes buffer) := by
  simp [readInto, hf]

/--
After every run from an empty directory the last visit of a replay to a key is to the record that
was stored last under it, which is read back there; a key that was never stored is not visited.
-/
theorem Run.replay_latest (hr : Run directory name s h) (hn : SegmentName.Plain name) (key : Int64)
    (hk : h.Covers key) :
    ∃ visits, s.self.replay s.host.disk = (visits, .ok ()) ∧
      match Entry.latestRecord key h.stored with
      | none => ∀ visit ∈ visits, visit.1 ≠ key
      | some r => ∃ location, (visits.filter (·.1 == key)).getLast? = some (key, location) ∧
          ∀ part (buffer : Bytes), Segment.partSize part r.data.length ≤ buffer.length →
            (readInto location part buffer s).1 =
              .ok ((Segment.partBytes part (BigEndian.ofInt64 key) r.data).length,
                Bytes.overlay 0 (Segment.partBytes part (BigEndian.ofInt64 key) r.data) buffer) := by
  obtain ⟨-, line, current, ht⟩ := hr.tracks hn
  refine ⟨_, ht.shelved.replay_run, ?_⟩
  have hlatest := ht.latest key hk
  cases he : Entry.latest key (Volume.allEntries line) with
  | none =>
      rw [he] at hlatest
      rw [← hlatest]
      intro visit hv
      obtain ⟨e, hm, rfl⟩ := List.mem_map.mp hv
      exact Entry.latest_eq_none.mp he e hm
  | some e =>
      rw [he] at hlatest
      rw [← hlatest]
      obtain ⟨hm, hkey⟩ := Entry.latest_mem he
      refine ⟨e.location, ?_, fun part buffer hroom => readInto_run ?_⟩
      · have hfilter : ((Volume.allEntries line).map fun e => (e.record.key, e.location)).filter
            (·.1 == key) = ((Volume.allEntries line).filter (·.record.key == key)).map
              fun e => (e.record.key, e.location) := List.filter_map
        have hlast : ((Volume.allEntries line).filter (·.record.key == key)).getLast? = some e := he
        rw [hfilter, List.getLast?_map, hlast, Option.map_some, hkey]
      · obtain ⟨v, hv, hev⟩ := List.mem_flatMap.mp hm
        have hvs : v ∈ current.toList ++ (line ++ []) :=
          List.mem_append_right _ (List.mem_append_left _ hv)
        rw [← hkey]
        exact ht.shelved.kept.holds.fetch hvs hev part hroom

/-- Two sessions write a key, and the archive is reopened: the second record is found. -/
theorem replay_latest_second_session :
    ∃ s visits location, Run [] "x" s ⟨[⟨7, [1]⟩, ⟨8, [2]⟩, ⟨7, [3]⟩], [], [(0, 10), (5, 9)]⟩ ∧
      s.self.replay s.host.disk = (visits, .ok ()) ∧
      (visits.filter (·.1 == 7)).getLast? = some (7, location) ∧
      (readInto location .data [0] s).1 = .ok (1, [3]) := by
  have hidle : (scenario "x" [.start, .store ⟨7, [1]⟩, .finish 0 10, .start, .store ⟨8, [2]⟩,
      .store ⟨7, [3]⟩, .finish 5 9]).any fun s => s.self.writer.isNone := by decide +kernel
  obtain ⟨s, hs, hnone⟩ := (Option.any_eq_true ..).mp hidle
  have hrun : Run [] "x" s ⟨[⟨7, [1]⟩, ⟨8, [2]⟩, ⟨7, [3]⟩], [], [(0, 10), (5, 9)]⟩ := run_of_scenario hs
  obtain ⟨s', -, hrun'⟩ := hrun.reopens (by decide) fun w hw => by
    rw [Option.mem_def.mp hw] at hnone
    cases hnone
  obtain ⟨visits, hv, hlatest⟩ := Run.replay_latest hrun' (by decide) 7 (by
    simp [History.Covers, History.after_reopen])
  have hrecord : Entry.latestRecord 7 [⟨7, [1]⟩, ⟨8, [2]⟩, ⟨7, [3]⟩] = some ⟨7, [3]⟩ := by decide
  simp only [History.after_reopen, hrecord] at hlatest
  obtain ⟨location, hl, hread⟩ := hlatest
  exact ⟨s', visits, location, hrun', hv, hl, hread .data [0] (by decide)⟩

/-- Under a name with a separator the files of a session are not found again. -/
theorem replay_forgets_separated_name :
    ∃ s h, Run [] "./x" s h ∧ h.Covers 7 ∧ Entry.latestRecord 7 h.stored = some ⟨7, [1]⟩ ∧
      s.self.replay s.host.disk = ([], .ok ()) := by
  have hlost : (scenario "./x" [.start, .store ⟨7, [1]⟩, .finish 0 10, .reopen]).any
      fun s => decide (s.self.completed = []) := by decide +kernel
  obtain ⟨s, hs, hnone⟩ := (Option.any_eq_true ..).mp hlost
  have hrun : Run [] "./x" s ⟨[⟨7, [1]⟩], [], [(0, 10)]⟩ := run_of_scenario hs
  refine ⟨s, _, hrun, by simp [History.Covers], by decide, ?_⟩
  rw [replay, of_decide_eq_true hnone]
  rfl

end Archive

end MeteredStorage
