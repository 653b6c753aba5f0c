import MeteredStorage.Proofs.Archive.Removal
import MeteredStorage.Proofs.Archive.Reopening

namespace MeteredStorage

def Disk.Vacant (d : Disk) (directory : Path) : Prop :=
  d.Sound ∧ ∃ n, d.find directory = .ok (some (.directory n)) ∧ d.entries n = []

namespace Segment

variable {s t : Segment} {line : List Segment} {f g : Footer}

theorem covers_iff (hf : t.footer = some f) (hg : s.footer = some g) :
    f.covers g = true ↔ f.index ≠ g.index ∧ f.merged = true ∧ t.origin ≤ s.origin ∧
      s.generation ≤ t.generation := by
  rw [generation_of_footer hf, generation_of_footer hg, origin_of_footer hf, origin_of_footer hg]
  simp [Footer.covers, UInt64.le_iff_toNat_le, and_assoc]

theorem isCovered_iff {ss : List Segment} : Archive.isCovered ss s = true ↔
    ∃ g, s.footer = some g ∧ ∃ t ∈ ss, ∃ f, t.footer = some f ∧ f.covers g = true := by
  simp [Archive.isCovered, Option.any_eq_true]

theorem Ranked.not_covered (h : Ranked line) (hs : s ∈ line) :
    Archive.isCovered line s = false := by
  rw [Bool.eq_false_iff, Ne, isCovered_iff]
  rintro ⟨g, hg, t, ht, f, hf, hcovers⟩
  obtain ⟨hindex, -, horigin, hgeneration⟩ := (covers_iff hf hg).mp hcovers
  have hds := (h.dated s hs).origin_le
  have hdt := (h.dated t ht).origin_le
  rcases cases_of_pairwise h.rising hs ht with rfl | hlt | hlt
  · rw [hg] at hf
    cases hf
    exact hindex rfl
  · omega
  · omega

end Segment

namespace Archive

variable {s : Hosted Archive} {line old ws : List Volume} {current : Option Volume} {a : Archive}
  {d : Disk} {host : Host} {directory : Path} {name : String}

theorem uncovered_of_ranked (h : Segment.Ranked (line.map Volume.segment)) :
    uncovered line = line := by
  refine List.filter_eq_self.mpr fun v hv => ?_
  rw [h.not_covered (List.mem_map_of_mem hv)]
  rfl

theorem ranked_of_shut (hs : ws.map Volume.shut = line.map Volume.shut)
    (h : Segment.Ranked (line.map Volume.segment)) : Segment.Ranked (ws.map Volume.segment) := by
  have hshut : Segment.Ranked ((line.map Volume.shut).map Volume.segment) := by
    refine ⟨fun t ht => ?_, ?_⟩
    · rw [List.map_map] at ht
      obtain ⟨v, hv, rfl⟩ := List.mem_map.mp ht
      have hd := h.dated v.segment (List.mem_map_of_mem hv)
      exact ⟨hd.origin_le, hd.generation_le⟩
    · rw [List.map_map, List.pairwise_map]
      exact List.pairwise_map.mp h.rising
  rw [← hs] at hshut
  refine ⟨fun t ht => ?_, ?_⟩
  · obtain ⟨v, hv, rfl⟩ := List.mem_map.mp ht
    have hd := hshut.dated v.shut.segment (List.mem_map_of_mem (List.mem_map_of_mem hv))
    exact ⟨hd.origin_le, hd.generation_le⟩
  · have hr := hshut.rising
    rw [List.map_map, List.pairwise_map] at hr
    exact List.pairwise_map.mpr hr

theorem exists_footer_of_shut (hs : ws.map Volume.shut = line.map Volume.shut) (hv : v ∈ ws)
    {f : Footer} (hf : v.segment.footer = some f) : ∃ u ∈ line, u.segment.footer = some f := by
  have hm : v.shut ∈ line.map Volume.shut := by
    rw [← hs]
    exact List.mem_map_of_mem hv
  obtain ⟨u, hu, he⟩ := List.mem_map.mp hm
  have hfooter : u.shut.segment.footer = some f := by
    rw [he]
    exact hf
  exact ⟨u, hu, hfooter⟩

theorem allEntries_of_shut (hs : ws.map Volume.shut = line.map Volume.shut) :
    Volume.allEntries ws = Volume.allEntries line := by
  have h (vs : List Volume) : Volume.allEntries (vs.map Volume.shut) = Volume.allEntries vs := by
    rw [Volume.allEntries, List.flatMap_map]
    rfl
  rw [← h ws, hs, h line]

/-- Volumes that have been found again in any order make up the line again. -/
theorem Shelved.of_kept (hk : Kept a d ws) (hp : (ws.map Volume.shut).Perm (line.map Volume.shut))
    (hw : a.writer = none) (hc : ∀ v ∈ line, v.segment.isComplete)
    (hr : Segment.Ranked (line.map Volume.segment)) :
    ∃ line', line'.map Volume.shut = line.map Volume.shut ∧ Shelved a d line' [] none := by
  obtain ⟨line', hl, hs⟩ := exists_map_of_perm hp.symm
  refine ⟨line', hs.symm, ?_, ?_, by simp, hw, ?_⟩
  · rw [Option.toList_none, List.nil_append, List.append_nil]
    exact hk.perm hl.symm
  · intro v hv
    rw [List.append_nil] at hv
    have hm : v.shut ∈ line.map Volume.shut := by
      rw [hs]
      exact List.mem_map_of_mem hv
    obtain ⟨u, hu, he⟩ := List.mem_map.mp hm
    have hcu : u.shut.segment.isComplete := hc u hu
    rw [he] at hcu
    exact hcu
  · rw [Option.toList_none, List.append_nil]
    exact ranked_of_shut hs.symm hr

theorem Shelved.close_run (h : Shelved s.self s.host.disk line old current) :
    ∃ s', close s = (.ok (), s') ∧ Follows 0 s.self s'.self ∧ s'.host.disk = s.host.disk ∧
      Kept s'.self s'.host.disk (current.toList ++ (line ++ old)) := by
  cases hw : s.self.writer with
  | none =>
      refine ⟨s, ?_, Follows.refl _, rfl, h.kept⟩
      simp [close, hw, h.kept.syncDirectory_run]
  | some w =>
      let s' : Hosted Archive := ⟨{ s.self with writer := none }, { s.host with
        events := .closedInSession w.segment.index :: s.host.events }⟩
      have hk : Kept s'.self s'.host.disk (current.toList ++ (line ++ old)) :=
        h.kept.congr rfl rfl rfl rfl
      refine ⟨s', ?_, ⟨rfl, rfl, rfl⟩, rfl, hk⟩
      have hsync := hk.syncDirectory_run
      simp only [s'] at hsync
      simp [close, hw, hsync, s']

def reopen : ArchiveTask Unit := do
  close
  let a := (← get).self
  let opened ← Hosted.onHost (init a.directory a.name)
  Hosted.update fun _ => opened

/-- What an open session has written so far does not look like a completed segment. -/
def LeavesTorn (s : Hosted Archive) : Prop :=
  ∀ w ∈ s.self.writer,
    Segment.completeFooter? w.segment.index (s.host.disk.content w.segment.slot) = .ok none

theorem Shelved.torn_or_complete (h : Shelved s.self s.host.disk line old current)
    (ht : LeavesTorn s) {v : Volume} (hv : v ∈ current.toList ++ (line ++ old)) :
    v.segment.isComplete ∨
      Segment.completeFooter? v.segment.index (s.host.disk.content v.segment.slot) = .ok none := by
  rcases List.mem_append.mp hv with hv | hv
  · refine .inr (ht v.writer ?_)
    rw [h.writer, Option.mem_toList.mp hv]
    rfl
  · exact .inl (h.complete v hv)

theorem Shelved.filter_complete (h : Shelved a d line old current) :
    (current.toList ++ (line ++ old)).filter (·.segment.isComplete) = line ++ old := by
  rw [List.filter_append, List.filter_eq_self.mpr h.complete, List.filter_eq_nil_iff.mpr,
    List.nil_append]
  intro v hv
  simp [Segment.isComplete, h.unfinished v (Option.mem_toList.mp hv)]

/-- Opening the directory of an archive finds its line again. -/
theorem Shelved.init_run (h : Shelved s.self s.host.disk line [] current)
    (hn : SegmentName.Plain s.self.name) (ht : LeavesTorn s) (hd : host.disk = s.host.disk) :
    ∃ a host' line', init s.self.directory s.self.name host = (.ok a, host') ∧
      a.directory = s.self.directory ∧ a.name = s.self.name ∧
      a.nextIndex.toNat ≤ Location.maxSegments ∧ line'.map Volume.shut = line.map Volume.shut ∧
      Shelved a host'.disk line' [] none := by
  obtain ⟨n, hfiled⟩ := h.kept.filed
  rw [← hd] at hfiled
  have hranked : Segment.Ranked (line.map Volume.segment) :=
    h.ranked.sublist ((List.sublist_append_left ..).map _)
  obtain ⟨a, host', ws, hinit, hdir, hname, hwriter, hnext, hkept, hp⟩ := hfiled.init_run hn
    fun v hv => by
      rw [hd]
      exact h.torn_or_complete ht hv
  rw [h.filter_complete, List.append_nil, uncovered_of_ranked hranked] at hp
  obtain ⟨line', hline, hs⟩ := Shelved.of_kept hkept hp hwriter
    (fun v hv => h.complete v (List.mem_append_left _ hv)) hranked
  exact ⟨a, host', line', hinit, hdir, hname, hnext, hline, hs⟩

/-- Closing an archive and opening it again keeps its line; an open session is dropped. -/
theorem Shelved.reopen_run (h : Shelved s.self s.host.disk line [] current)
    (hn : SegmentName.Plain s.self.name) (ht : LeavesTorn s) :
    ∃ s' line', reopen s = (.ok (), s') ∧ s'.self.directory = s.self.directory ∧
      s'.self.name = s.self.name ∧ s'.self.nextIndex.toNat ≤ Location.maxSegments ∧
      line'.map Volume.shut = line.map Volume.shut ∧
      Shelved s'.self s'.host.disk line' [] none := by
  obtain ⟨s1, hclose, hf, hdisk, -⟩ := h.close_run
  obtain ⟨a, host', line', hinit, hdir, hname, hnext, hline, hs⟩ := h.init_run hn ht hdisk
  refine ⟨⟨a, host'⟩, line', ?_, hdir, hname, hnext, hline, hs⟩
  have hrun : Hosted.onHost (init s1.self.directory s1.self.name) s1 = (.ok a, ⟨s1.self, host'⟩) := by
    rw [hf.directory, hf.name]
    exact Task.zoom_ok hinit
  simp only [reopen, Task.bind_run, hclose, Task.get_run, hrun, Hosted.update_run]

/-- An archive whose files are never found opens as an empty one. -/
theorem Filed.init_empty {n : Nat} {vs : List Volume} (h : Filed directory name n host.disk vs)
    (hv : SegmentName.Plain name → vs = []) :
    ∃ a host', init directory name host = (.ok a, host') ∧ a.directory = directory ∧
      a.name = name ∧ a.nextIndex.toNat ≤ Location.maxSegments ∧
      Shelved a host'.disk [] [] none := by
  have hempty {a : Archive} {host' : Host} {ws : List Volume} (hk : Kept a host'.disk ws)
      (hw : a.writer = none) (hp : (ws.map Volume.shut).Perm (([] : List Volume).map Volume.shut)) :
      Shelved a host'.disk [] [] none := by
    obtain ⟨line, hline, hs⟩ := Shelved.of_kept hk hp hw (by simp) ⟨by simp, List.Pairwise.nil⟩
    have hnil : line = [] := by simpa using hline
    rwa [hnil] at hs
  by_cases hn : SegmentName.Plain name
  · rw [hv hn] at h
    obtain ⟨a, host', ws, hinit, hdir, hname, hwriter, hnext, hk, hp⟩ := h.init_run hn (by simp)
    exact ⟨a, host', hinit, hdir, hname, hnext, hempty hk hwriter hp⟩
  · obtain ⟨a, host', hinit, hdir, hname, hwriter, hnext, hk⟩ := h.init_foreign hn
    exact ⟨a, host', hinit, hdir, hname, hnext, hempty hk hwriter (List.Perm.refl _)⟩

theorem filed_of_vacant {d : Disk} (h : d.Vacant directory) (name : String) :
    ∃ n, Filed directory name n d ([] : List Volume) := by
  obtain ⟨hsound, n, hfind, hentries⟩ := h
  exact ⟨n, hsound, ⟨hfind, by simp [hentries], by simp [hentries, ListedFile.all]⟩, by simp,
    List.Pairwise.nil, List.Pairwise.nil, by simp⟩

theorem init_of_vacant (h : host.disk.Vacant directory) (name : String) :
    ∃ a host', init directory name host = (.ok a, host') ∧ a.directory = directory ∧
      a.name = name ∧ a.nextIndex.toNat ≤ Location.maxSegments ∧
      Shelved a host'.disk [] [] none := by
  obtain ⟨n, hfiled⟩ := filed_of_vacant h name
  exact hfiled.init_empty fun _ => rfl

end Archive

end MeteredStorage
