import MeteredStorage.Proofs.Archive.Recency

namespace MeteredStorage.Archive

/--
The states that an archive reaches from an empty directory by operations that may fail. The number of
the next index has not run over, and a session that is dropped by a reopening has not written what
looks like a completed segment.
-/
inductive Reached (directory : Path) (name : String) : Hosted Archive → Prop
  | opened {host host' : Host} {a : Archive} (hd : host.disk.Vacant directory)
      (h : init directory name host = (.ok a, host')) : Reached directory name ⟨a, host'⟩
  | acted {s s' : Hosted Archive} {act : Action} {r : Except ArchiveError Unit}
      (hr : Reached directory name s) (hs : act.run s = (r, s'))
      (hn : s.self.nextIndex.toNat + 1 < 0x100000000) (ht : act = .reopen → LeavesTorn s) :
      Reached directory name s'

variable {directory : Path} {name : String} {s s' : Hosted Archive} {h : History}
  {line : List Volume} {current : Option Volume}

theorem Run.reached (hr : Run directory name s h) (hn : SegmentName.Plain name) :
    Reached directory name s := by
  induction hr with
  | opened hd hinit => exact .opened hd hinit
  | succeeded hr hs ht ih =>
      obtain ⟨-, line, current, htracks⟩ := hr.tracks hn
      exact ih.acted hs htracks.no_wrap ht
  | failed hr hs hact _ ih =>
      obtain ⟨-, line, current, htracks⟩ := hr.tracks hn
      exact ih.acted hs htracks.no_wrap fun he => absurd he hact

structure Shelves (directory : Path) (name : String) (s : Hosted Archive) : Prop where
  directory : s.self.directory = directory
  name : s.self.name = name
  shelved : ∃ line current, Shelved s.self s.host.disk line [] current

theorem Shelves.follow {n : Nat} (h : Shelves directory name s) (hf : Follows n s.self s'.self)
    (hs : Shelved s'.self s'.host.disk line [] current) : Shelves directory name s' :=
  ⟨hf.directory.trans h.directory, hf.name.trans h.name, line, current, hs⟩

theorem Shelves.start (h : Shelves directory name s) (hn : s.self.nextIndex.toNat + 1 < 0x100000000)
    {r : Except ArchiveError Unit} (hrun : startWriting s = (r, s')) : Shelves directory name s' := by
  obtain ⟨line, current, hs⟩ := h.shelved
  cases current with
  | some v =>
      have hw : s.self.writer = some v.writer := hs.writer
      have hgo : startWriting s = (.error .sessionActive, s) := by simp [startWriting, hw]
      rw [hgo] at hrun
      cases hrun
      exact h
  | none =>
      rcases hs.startWriting_cases hn with ⟨e, s1, hgo, hf, hs', -⟩ | ⟨v, s1, hgo, -, -, -, hf, hs'⟩
      · rw [hgo] at hrun
        cases hrun
        exact h.follow hf hs'
      · rw [hgo] at hrun
        cases hrun
        exact h.follow hf hs'

theorem Shelves.finish (h : Shelves directory name s) {minKey maxKey : Int64}
    {r : Except ArchiveError Unit} (hrun : endWriting minKey maxKey s = (r, s')) :
    Shelves directory name s' := by
  obtain ⟨line, current, hs⟩ := h.shelved
  cases current with
  | none =>
      have hw : s.self.writer = none := hs.writer
      have hgo : endWriting minKey maxKey s = (.error .noSession, s) := by simp [endWriting, hw]
      rw [hgo] at hrun
      cases hrun
      exact h
  | some v =>
      obtain ⟨f, s1, hgo, -, -, -, hf, hs'⟩ := hs.endWriting_run minKey maxKey
      rw [hgo] at hrun
      cases hrun
      exact h.follow hf hs'

theorem Shelves.merge (h : Shelves directory name s) (hn : s.self.nextIndex.toNat + 1 < 0x100000000)
    {files : List Segment} {r : Except ArchiveError Unit}
    (hrun : Archive.merge (fun _ => pure ()) files s = (r, s')) : Shelves directory name s' := by
  obtain ⟨line, current, hs⟩ := h.shelved
  rcases hs.prepareMerge_cases hn files with hgo | hgo | ⟨e, s1, hgo, hf, hs', -⟩ |
    ⟨m, s1, front, run, back, newest, out, hgo, hp⟩
  · rw [Archive.merge, Task.bind_ok hgo] at hrun
    cases hrun
    exact h
  · rw [Archive.merge, Task.bind_error hgo] at hrun
    cases hrun
    exact h
  · rw [Archive.merge, Task.bind_error hgo] at hrun
    cases hrun
    exact h.follow hf hs'
  · obtain ⟨s2, hfinish, hf, hs'⟩ := hp.finishMerge_run
    rw [Archive.merge, Task.bind_ok hgo] at hrun
    simp only [Task.bind_run, Task.pure_run, hfinish] at hrun
    cases hrun
    exact h.follow (hp.follows.trans hf) hs'

theorem Shelved.reopen_foreign {old : List Volume} (h : Shelved s.self s.host.disk line old current)
    (hn : ¬SegmentName.Plain s.self.name) :
    ∃ s', reopen s = (.ok (), s') ∧ s'.self.directory = s.self.directory ∧
      s'.self.name = s.self.name ∧ Shelved s'.self s'.host.disk [] [] none := by
  obtain ⟨s1, hclose, hf, -, hk⟩ := h.close_run
  obtain ⟨n, hfiled⟩ := hk.filed
  rw [hf.directory, hf.name] at hfiled
  obtain ⟨a, host', hinit, hdir, hname, -, hs⟩ := hfiled.init_empty fun hp => absurd hp hn
  refine ⟨⟨a, host'⟩, ?_, hdir, hname, hs⟩
  have hrun : Hosted.onHost (init s1.self.directory s1.self.name) s1 = (.ok a, ⟨s1.self, host'⟩) := by
    rw [hf.directory, hf.name]
    exact Task.zoom_ok hinit
  simp only [reopen, Task.bind_run, hclose, Task.get_run, hrun, Hosted.update_run]

theorem Shelves.reopened (h : Shelves directory name s) (ht : LeavesTorn s)
    {r : Except ArchiveError Unit} (hrun : reopen s = (r, s')) :
    r = .ok () ∧ Shelves directory name s' := by
  obtain ⟨line, current, hs⟩ := h.shelved
  by_cases hn : SegmentName.Plain s.self.name
  · obtain ⟨s1, line', hgo, hdir, hname, -, -, hs'⟩ := hs.reopen_run hn ht
    rw [hgo] at hrun
    cases hrun
    exact ⟨rfl, hdir.trans h.directory, hname.trans h.name, line', none, hs'⟩
  · obtain ⟨s1, hgo, hdir, hname, hs'⟩ := hs.reopen_foreign hn
    rw [hgo] at hrun
    cases hrun
    exact ⟨rfl, hdir.trans h.directory, hname.trans h.name, [], none, hs'⟩

theorem Shelves.acted (h : Shelves directory name s) {act : Action} {r : Except ArchiveError Unit}
    (hrun : act.run s = (r, s')) (hn : s.self.nextIndex.toNat + 1 < 0x100000000)
    (ht : act = .reopen → LeavesTorn s) : Shelves directory name s' := by
  cases act with
  | start => exact h.start hn hrun
  | store record =>
      obtain ⟨line, current, hs⟩ := h.shelved
      have hstate : s' = (Archive.store record s).2 := by
        rw [← Task.snd_ignore]
        exact (congrArg Prod.snd hrun).symm
      rcases hs.store_cases record with ⟨e, hgo, -⟩ | ⟨v, s1, -, -, -, hgo, hf, hs'⟩
      · rw [hstate, hgo]
        exact h
      · rw [hstate, hgo]
        exact h.follow hf hs'
  | finish minKey maxKey => exact h.finish hrun
  | merge files => exact h.merge hn hrun
  | reopen => exact (h.reopened (ht rfl) hrun).2
  | wait clock =>
      cases hrun
      exact ⟨h.directory, h.name, h.shelved⟩

theorem Reached.shelves (hr : Reached directory name s) : Shelves directory name s := by
  induction hr with
  | opened hd hinit =>
      obtain ⟨a, host', hgo, hdir, hname, -, hs⟩ := init_of_vacant hd name
      rw [hgo] at hinit
      cases hinit
      exact ⟨hdir, hname, [], none, hs⟩
  | acted _ hs hn ht ih => exact ih.acted hs hn ht

end MeteredStorage.Archive
