import MeteredStorage.Proofs.Archive.Recovery
import MeteredStorage.Proofs.PagedMap.Sequence

namespace MeteredStorage

variable {K : Type} [FixedKey K] {s s' : MapState K} {line : List Volume} {versions : Versions K}
  {directory : Path} {name : String} {mapSize : UInt64} {d : Dimensions} {a : Archive} {host : Host}

theorem mapSize_of_dimensionsFor (h : PagedMap.dimensionsFor K mapSize = .ok d) :
    d.mapSize = mapSize := by
  simp only [PagedMap.dimensionsFor, bind, Except.bind] at h
  split at h
  · cases h
  · simp only [Dimensions.ofMapSize] at h
    split at h
    · cases h
    · cases h
      rfl

namespace PagedMap

def rebuilt (K : Type) (name : String) (d : Dimensions) (a : Archive) (line : List Volume) :
    PagedMap K where
  name := name
  dimensions := d
  table := (rebuild d ((Volume.allEntries line).map fun e => (e.record.key, e.location)) .empty 0).1
  archive := a
  busy := false
  changes := none
  counts := {}

theorem ofArchive_of_replay {n : Nat} (hhome : host.disk.find a.directory = .ok (some (.directory n)))
    (hdir : a.directory = directory) (hd : dimensionsFor K mapSize = .ok d)
    {visits : List (Int64 × Int64)} (hr : a.replay host.disk = (visits, .ok ())) (name : String) :
    ∃ host', ofArchive K directory name mapSize a host =
      (.ok ⟨name, d, (rebuild d visits .empty 0).1, a, false, none, {}⟩, host') ∧
        host'.disk = host.disk := by
  rw [hdir] at hhome
  have hmake : Task.zoom Host.disk (fun d (h : Host) => { h with disk := d }) MapError.disk
      (Disk.makeDirectories directory) host = (.ok (), host) :=
    Task.zoom_ok (Disk.makeDirectories_run hhome)
  simp only [ofArchive, hd, Task.bind_run, Task.ofExcept_ok, hmake, Task.get_run, hr]
  by_cases hignored : 0 < (rebuild d visits .empty 0).2
  · rw [if_pos hignored]
    exact ⟨_, rfl, rfl⟩
  · rw [if_neg hignored]
    exact ⟨_, rfl, rfl⟩

theorem init_of_archive {host' : Host} (hinit : Archive.init directory name host = (.ok a, host')) :
    init K directory name mapSize host = ofArchive K directory name mapSize a host' := by
  have hzoom : Task.zoom id (fun h _ => h) MapError.archive (Archive.init directory name) host =
      (.ok a, host') := Task.zoom_ok hinit
  rw [init, Task.bind_ok hzoom]

theorem ofArchive_run (hs : Archive.Shelved a host.disk line [] none) (hdir : a.directory = directory)
    (hd : dimensionsFor K mapSize = .ok d) (name : String) :
    ∃ host', ofArchive K directory name mapSize a host = (.ok (rebuilt K name d a line), host') ∧
      host'.disk = host.disk := by
  obtain ⟨n, hhome⟩ := hs.kept.holds.home
  exact ofArchive_of_replay hhome hdir hd hs.replay_run name

theorem init_run {host' : Host} (hinit : Archive.init directory name host = (.ok a, host'))
    (hs : Archive.Shelved a host'.disk line [] none) (hdir : a.directory = directory)
    (hd : dimensionsFor K mapSize = .ok d) :
    ∃ host'', init K directory name mapSize host = (.ok (rebuilt K name d a line), host'') ∧
      host''.disk = host'.disk := by
  rw [init_of_archive hinit]
  exact ofArchive_run hs hdir hd name

def reopen : MapTask K Unit := do
  close
  let m := (← get).self
  let opened ← Hosted.onHost (init K m.archive.directory m.name m.dimensions.mapSize)
  modify (·.update fun _ => opened)

end PagedMap

structure Exhibits (d : Dimensions) (line : List Volume) (versions : Versions K) : Prop where
  ranges : Spanning d.buckets line
  shows : Shows d (Volume.allEntries line) versions
  pages : ∀ e ∈ Volume.allEntries line, e.record.IsPage K d

theorem Exhibits.nothing (d : Dimensions) : Exhibits d [] (fun _ => (none : Option (Bindings K))) :=
  ⟨.nil _, .nothing d, by simp [Volume.allEntries]⟩

theorem Located.rebuilt (hd : PagedMap.dimensionsFor K mapSize = .ok d)
    (hs : Archive.Shelved a host.disk line [] none)
    (hr : Spanning d.buckets line) :
    Located ⟨PagedMap.rebuilt K name d a line, host⟩ ⟨line, [], none, [], none, []⟩ where
  shaped := shaped_of_dimensionsFor hd
  shelved := hs
  points := .rebuilt (shaped_of_dimensionsFor hd).buckets_le hr
  outdated := by
    have hranked := hs.ranked
    rw [Option.toList_none, List.append_nil] at hranked
    exact .nothing hranked

theorem Configured.rebuilt (hname : a.name = name) (hd : PagedMap.dimensionsFor K mapSize = .ok d) :
    Configured ⟨PagedMap.rebuilt K name d a line, host⟩ where
  name := hname
  dimensions := by
    change PagedMap.dimensionsFor K d.mapSize = .ok d
    rw [mapSize_of_dimensionsFor hd, hd]

theorem Idle.rebuilt (hname : a.name = name) (hd : PagedMap.dimensionsFor K mapSize = .ok d)
    (hs : Archive.Shelved a host.disk line [] none) (h : Exhibits d line versions) :
    Idle ⟨PagedMap.rebuilt K name d a line, host⟩ line versions where
  configured := .rebuilt hname hd
  indexed := by
    refine ⟨.rebuilt hd hs h.ranges, ?_, ?_⟩
    · rw [Stock.live, List.append_nil]
      exact h.shows
    · rw [Stock.volumes, Option.toList_none, List.nil_append, List.append_nil]
      exact h.pages
  collected := nofun

theorem Located.closeArchive_run {k : Stock} (h : Located s k) :
    ∃ s', PagedMap.onArchive Archive.close s = (.ok (), s') ∧ Kin 0 0 s s' ∧
      s'.host.disk = s.host.disk := by
  obtain ⟨u, hrun, hf, hdisk, -⟩ :=
    Archive.Shelved.close_run (s := ⟨s.self.archive, s.host⟩) h.shelved
  refine ⟨s.withArchive u, ?_, Kin.withArchive hf, hdisk⟩
  rw [PagedMap.onArchive, MapState.inArchive_run hrun]

theorem Located.close_run {k : Stock} (h : Located s k) :
    ∃ s', PagedMap.close s = (.ok (), s') ∧ Kin 0 0 s s' ∧ s'.host.disk = s.host.disk := by
  by_cases hopen : s.self.changes.isSome
  · have h1 := h.alike (.report s (.mapClosedInSession s.self.name))
    obtain ⟨s', hrun, hkin, hdisk⟩ := h1.located.closeArchive_run
    refine ⟨s', ?_, h1.kin.trans hkin, hdisk⟩
    rw [PagedMap.close, Task.bind_ok (Task.get_run s)]
    simp only [if_pos hopen, Task.bind_run, Task.modify_run]
    exact hrun
  · obtain ⟨s', hrun, hkin, hdisk⟩ := h.closeArchive_run
    refine ⟨s', ?_, hkin, hdisk⟩
    rw [PagedMap.close, Task.bind_ok (Task.get_run s), if_neg hopen]
    exact hrun

structure Reopens (s : MapState K) (a : Archive) (host : Host) (line : List Volume) : Prop where
  run : PagedMap.reopen s =
    (.ok (), ⟨PagedMap.rebuilt K s.self.name s.self.dimensions a line, host⟩)
  directory : a.directory = s.self.archive.directory
  name : a.name = s.self.archive.name
  room : a.nextIndex.toNat ≤ Location.maxSegments
  shelved : Archive.Shelved a host.disk line [] none

theorem Reopens.remains (h : Reopens s a host line) :
    Remains s ⟨PagedMap.rebuilt K s.self.name s.self.dimensions a line, host⟩ :=
  ⟨rfl, rfl, h.name, h.directory⟩

theorem Located.reopen_of_init {k : Stock} (h : Located s k) (hc : Configured s)
    {P : List Volume → Prop} (hinit : ∀ host : Host, host.disk = s.host.disk → ∃ a host' line',
      Archive.init s.self.archive.directory s.self.archive.name host = (.ok a, host') ∧
        a.directory = s.self.archive.directory ∧ a.name = s.self.archive.name ∧
        a.nextIndex.toNat ≤ Location.maxSegments ∧ Archive.Shelved a host'.disk line' [] none ∧
        P line') :
    ∃ a host line', Reopens s a host line' ∧ P line' := by
  obtain ⟨s1, hclose, hkin, hdisk⟩ := h.close_run
  obtain ⟨a, host1, line', harchive, hadir, haname, hnext, hs, hp⟩ := hinit s1.host hdisk
  obtain ⟨host2, hopen, hdisk2⟩ := PagedMap.init_run harchive hs hadir hc.dimensions
  rw [← hdisk2] at hs
  refine ⟨a, host2, line', ⟨?_, hadir, haname, hnext, hs⟩, hp⟩
  rw [hc.name] at hopen
  have hrun : Hosted.onHost (PagedMap.init K s1.self.archive.directory s1.self.name
      s1.self.dimensions.mapSize) s1 =
      (.ok (PagedMap.rebuilt K s.self.name s.self.dimensions a line'), ⟨s1.self, host2⟩) := by
    rw [hkin.follows.directory, hkin.name, hkin.dimensions]
    exact Task.zoom_ok hopen
  simp only [PagedMap.reopen, Task.bind_run, hclose, Task.get_run, hrun, Task.modify_run]
  rfl

theorem Located.reopen_run (h : Located s ⟨line, [], none, [], none, []⟩) (hc : Configured s)
    (hn : SegmentName.Plain s.self.name) :
    ∃ a host line', Reopens s a host line' ∧ line'.map Volume.shut = line.map Volume.shut := by
  have hs := h.shelved
  have htorn : Archive.LeavesTorn ⟨s.self.archive, s.host⟩ := by
    intro w hw
    have hidle : s.self.archive.writer = none := hs.writer
    rw [Option.mem_def.mp hw] at hidle
    cases hidle
  refine h.reopen_of_init hc fun host hd => ?_
  obtain ⟨a, host', line', hinit, hdir, hname, hnext, hline, hs'⟩ :=
    Archive.Shelved.init_run (s := ⟨s.self.archive, s.host⟩) hs (hc.name ▸ hn) htorn hd
  exact ⟨a, host', line', hinit, hdir, hname, hnext, hs', hline⟩

theorem Located.reopen_foreign {k : Stock} (h : Located s k) (hc : Configured s)
    (hn : ¬SegmentName.Plain s.self.name) : ∃ a host, Reopens s a host [] := by
  obtain ⟨n, hfiled⟩ := h.shelved.kept.filed
  have hreopens : ∃ a host line', Reopens s a host line' ∧ line' = [] := by
    refine h.reopen_of_init hc fun host hd => ?_
    rw [← hd] at hfiled
    obtain ⟨a, host', hinit, hdir, hname, hnext, hs⟩ := hfiled.init_empty
      fun hplain => absurd (hc.name ▸ hplain) hn
    exact ⟨a, host', [], hinit, hdir, hname, hnext, hs, rfl⟩
  obtain ⟨a, host, line', hr, rfl⟩ := hreopens
  exact ⟨a, host, hr⟩

theorem ranges_of_shut {line' : List Volume} {buckets : Nat}
    (hline : line'.map Volume.shut = line.map Volume.shut) (h : Spanning buckets line) :
    Spanning buckets line' := by
  intro v hv f hf
  obtain ⟨u, hu, hfooter⟩ := Archive.exists_footer_of_shut hline hv hf
  exact h u hu f hfooter

theorem Idle.exhibits (h : Idle s line versions) : Exhibits s.self.dimensions line versions where
  ranges := h.indexed.points.spanning
  shows := h.indexed.shows_line rfl
  pages := by
    have hpages := h.indexed.pages
    rwa [Stock.volumes, Option.toList_none, List.nil_append, List.append_nil] at hpages

theorem Exhibits.shut {line' : List Volume} (h : Exhibits d line versions)
    (hline : line'.map Volume.shut = line.map Volume.shut) : Exhibits d line' versions where
  ranges := ranges_of_shut hline h.ranges
  shows := by
    rw [Archive.allEntries_of_shut hline]
    exact h.shows
  pages := by
    rw [Archive.allEntries_of_shut hline]
    exact h.pages

theorem Idle.reopened (h : Idle s line versions) {line' : List Volume} {versions' : Versions K}
    (hr : Reopens s a host line') (he : Exhibits s.self.dimensions line' versions') :
    ∃ s' line', PagedMap.reopen s = (.ok (), s') ∧ Idle s' line' versions' ∧ Remains s s' ∧
      s'.self.changes = none ∧ Roomy s' :=
  ⟨_, line', hr.run, .rebuilt (hr.name.trans h.configured.name) h.configured.dimensions hr.shelved he,
    hr.remains, rfl, hr.room⟩

theorem Idle.reopen_run (h : Idle s line versions) (hn : SegmentName.Plain s.self.name) :
    ∃ s' line', PagedMap.reopen s = (.ok (), s') ∧ Idle s' line' versions ∧ Remains s s' ∧
      s'.self.changes = none ∧ Roomy s' := by
  obtain ⟨a, host, line', hr, hline⟩ := h.indexed.reopen_run h.configured hn
  exact h.reopened hr (h.exhibits.shut hline)

theorem Idle.reopen_foreign (h : Idle s line versions) (hn : ¬SegmentName.Plain s.self.name) :
    ∃ s' line', PagedMap.reopen s = (.ok (), s') ∧ Idle s' line' (fun _ => none) ∧ Remains s s' ∧
      s'.self.changes = none ∧ Roomy s' := by
  obtain ⟨a, host, hr⟩ := h.indexed.reopen_foreign h.configured hn
  exact h.reopened hr (.nothing _)

theorem PagedMap.init_of_vacant {m : PagedMap K} {host' : Host} (hd : host.disk.Vacant directory)
    (hinit : init K directory name mapSize host = (.ok m, host')) :
    ∃ a d, m = rebuilt K name d a [] ∧ dimensionsFor K mapSize = .ok d ∧ a.directory = directory ∧
      a.name = name ∧
      a.nextIndex.toNat ≤ Location.maxSegments ∧ Archive.Shelved a host'.disk [] [] none := by
  obtain ⟨a, host1, harchive, hdir, hname, hnext, hs⟩ := Archive.init_of_vacant hd name
  cases hdimensions : dimensionsFor K mapSize with
  | error e =>
      rw [init_of_archive harchive, ofArchive, hdimensions] at hinit
      cases hinit
  | ok d =>
      obtain ⟨host2, hrun, hdisk⟩ := init_run harchive hs hdir hdimensions
      rw [hrun] at hinit
      cases hinit
      rw [← hdisk] at hs
      exact ⟨a, d, rfl, rfl, hdir, hname, hnext, hs⟩

theorem idle_of_vacant {m : PagedMap K} {host' : Host} (hd : host.disk.Vacant directory)
    (hinit : PagedMap.init K directory name mapSize host = (.ok m, host')) :
    m.name = name ∧ Idle ⟨m, host'⟩ [] (fun _ => none) ∧ m.changes = none ∧ Roomy ⟨m, host'⟩ := by
  obtain ⟨a, d, rfl, hdimensions, -, hname, hnext, hs⟩ := PagedMap.init_of_vacant hd hinit
  exact ⟨rfl, .rebuilt hname hdimensions hs (.nothing d), rfl, hnext⟩

end MeteredStorage
