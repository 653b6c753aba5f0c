import MeteredStorage.Proofs.Archive.Recency

namespace MeteredStorage

namespace Segment

def shut (s : Segment) : Segment := { s with handle := 0 }

structure DatedBy (s : Segment) (f : Footer) : Prop where
  footer : s.footer = some f
  index : f.index = s.index
  mergedFrom_le : f.mergedFrom ≤ f.generation
  generation_le : f.generation ≤ s.index.toUInt64
  session : f.merged = false →
    f.mergedFrom = s.index.toUInt64 ∧ f.generation = s.index.toUInt64

theorem size_shut (s : Segment) : s.shut.size = s.size := rfl

end Segment

namespace Archive

structure Chronological (a : Archive) : Prop where
  dated : ∀ s ∈ a.segments, s.isComplete → s.index < a.nextIndex ∧ ∃ f, s.DatedBy f
  rising : a.completed.Pairwise fun s t =>
    ∀ f ∈ s.footer, ∀ g ∈ t.footer, f.generation < g.mergedFrom
  apart : ∀ s ∈ a.segments, ∀ t ∈ a.segments, ∀ f ∈ s.footer, ∀ g ∈ t.footer, ¬f.covers g
  newest : ∀ w ∈ a.writer, ∀ s ∈ a.segments, ∀ f ∈ s.footer,
    f.generation < w.segment.index.toUInt64

/-- The archive `t` has the completed segments of `s` and nothing else. -/
structure Restored (s t : Hosted Archive) : Prop where
  complete : ∀ x ∈ t.self.segments, x.isComplete
  completed : t.self.completed.map Segment.shut = s.self.completed.map Segment.shut
  files : ∀ x ∈ s.self.completed, t.host.disk.HasFile x.path x.slot ∧
    t.host.disk.content x.slot = s.host.disk.content x.slot
  replay : t.self.replay t.host.disk = s.self.replay s.host.disk
  oldest : ∀ limit, (t.self.oldest limit).map Segment.shut = (s.self.oldest limit).map Segment.shut

variable {a : Archive} {d : Disk} {s t : Hosted Archive} {line line' : List Volume}
  {current : Option Volume} {v : Volume} {directory : Path} {name : String} {h : History}

theorem Shelved.line_of_footer (hs : Shelved a d line [] current) {x : Segment} {f : Footer}
    (hx : x ∈ a.segments) (hf : x.footer = some f) : ∃ v ∈ line, v.segment = x := by
  have hm : x ∈ a.completed := mem_completed.mpr ⟨hx, by rw [Segment.isComplete, hf]; rfl⟩
  rw [hs.completed_eq] at hm
  exact List.mem_map.mp hm

theorem Shelved.datedBy (hs : Shelved a d line [] current) (hv : v ∈ line) {f : Footer}
    (hf : v.segment.footer = some f) : v.segment.DatedBy f := by
  have hdesc := (hs.mem_line hv).1.footer f hf
  have hdated := hs.ranked.dated v.segment (List.mem_map_of_mem (List.mem_append_left _ hv))
  refine ⟨hf, hdesc.index, ?_, ?_, hdesc.session⟩
  · have hle := hdated.origin_le
    rwa [Segment.origin_of_footer hf, Segment.generation_of_footer hf,
      ← UInt64.le_iff_toNat_le] at hle
  · have hle := hdated.generation_le
    rwa [Segment.generation_of_footer hf, ← UInt32.toNat_toUInt64, ← UInt64.le_iff_toNat_le] at hle

theorem Shelved.chronological (hs : Shelved a d line [] current) : a.Chronological := by
  have hline : Segment.Ranked (line.map Volume.segment) :=
    hs.ranked.sublist ((List.sublist_append_left ..).map _)
  refine ⟨fun x hx hc => ?_, ?_, ?_, ?_⟩
  · obtain ⟨f, hf⟩ := Option.isSome_iff_exists.mp hc
    obtain ⟨v, hv, rfl⟩ := hs.line_of_footer hx hf
    refine ⟨UInt32.lt_iff_toNat_lt.mpr (hs.kept.holds.index_lt v ?_), f, hs.datedBy hv hf⟩
    exact List.mem_append_right _ (List.mem_append_left _ hv)
  · rw [hs.completed_eq]
    refine hline.rising.imp fun {x y} hlt f hf g hg => ?_
    rwa [Segment.generation_of_footer hf, Segment.origin_of_footer hg,
      ← UInt64.lt_iff_toNat_lt] at hlt
  · intro x hx y hy f hf g hg hcovers
    obtain ⟨u, hu, rfl⟩ := hs.line_of_footer hx hf
    obtain ⟨v, hv, rfl⟩ := hs.line_of_footer hy hg
    have hnot := hline.not_covered (List.mem_map_of_mem hv)
    rw [Segment.isCovered_iff.mpr ⟨g, hg, u.segment, List.mem_map_of_mem hu, f, hf, hcovers⟩] at hnot
    cases hnot
  · intro w hw x hx f hf
    obtain ⟨u, hu, rfl⟩ := hs.line_of_footer hx hf
    have hwriter := hs.writer
    cases current with
    | none =>
        rw [Option.mem_def.mp hw] at hwriter
        cases hwriter
    | some v =>
        rw [Option.mem_def.mp hw] at hwriter
        cases hwriter
        have hranked := hs.ranked
        rw [Option.toList_some, List.map_append, List.map_singleton] at hranked
        have hlt := (Segment.ranked_concat.mp hranked).2.2 u.segment (List.mem_map_of_mem hu)
        rw [Segment.generation_of_footer hf, Segment.origin, hs.unfinished v rfl] at hlt
        rw [UInt64.lt_iff_toNat_lt]
        exact Nat.lt_of_lt_of_eq hlt (UInt32.toNat_toUInt64 v.segment.index).symm

theorem takeWithin_shut (limit total : Nat) (ss : List Segment) :
    (takeWithin limit total ss).map Segment.shut = takeWithin limit total (ss.map Segment.shut) := by
  induction ss generalizing total with
  | nil => rfl
  | cons x ss ih =>
      simp only [List.map_cons, takeWithin, Segment.size_shut, ← ih]
      split
      · rfl
      · rfl

theorem map_segment_shut (vs : List Volume) :
    (vs.map Volume.segment).map Segment.shut = (vs.map Volume.shut).map Volume.segment := by
  rw [List.map_map, List.map_map]
  rfl

/-- An archive with the same volumes, seen through other openings, is the same archive. -/
theorem Shelved.restored (hs : Shelved s.self s.host.disk line [] current)
    (ht : Shelved t.self t.host.disk line' [] none)
    (hline : line'.map Volume.shut = line.map Volume.shut) : Restored s t := by
  have hcompleted : t.self.completed.map Segment.shut = s.self.completed.map Segment.shut := by
    rw [ht.completed_eq, hs.completed_eq, map_segment_shut, map_segment_shut, hline]
  refine ⟨fun x hx => ?_, hcompleted, fun x hx => ?_, ?_, fun limit => ?_⟩
  · obtain ⟨v, hv, rfl⟩ := ht.kept.holds.mem_segments.mp hx
    exact ht.complete v hv
  · rw [hs.completed_eq] at hx
    obtain ⟨v, hv, rfl⟩ := List.mem_map.mp hx
    have hm : v.shut ∈ line'.map Volume.shut := by
      rw [hline]
      exact List.mem_map_of_mem hv
    obtain ⟨u, hu, he⟩ := List.mem_map.mp hm
    have hstored := ((ht.mem_line hu).1.held 0)
    have hshut : u.held 0 = v.held 0 := he
    rw [hshut] at hstored
    refine ⟨hstored.file, ?_⟩
    rw [(hs.mem_line hv).1.content]
    exact hstored.content
  · rw [ht.replay_run, hs.replay_run, allEntries_of_shut hline]
  · rw [oldest, oldest, takeWithin_shut, takeWithin_shut, hcompleted]

theorem Shelved.startWriting_completed (hs : Shelved s.self s.host.disk line [] current)
    (hnext : s.self.nextIndex.toNat + 1 < 0x100000000) (hrun : startWriting s = (.ok (), t)) :
    ∃ w, t.self.writer = some w ∧ t.self.completed = s.self.completed ∧ t.self.Chronological := by
  cases current with
  | some v =>
      have hw : s.self.writer = some v.writer := hs.writer
      have hgo : startWriting s = (.error .sessionActive, s) := by simp [startWriting, hw]
      rw [hgo] at hrun
      cases hrun
  | none =>
      rcases hs.startWriting_cases hnext with ⟨e, s1, hgo, -⟩ | ⟨v, s1, hgo, -, -, -, -, hs'⟩
      · rw [hgo] at hrun
        cases hrun
      · rw [hgo] at hrun
        cases hrun
        refine ⟨v.writer, hs'.writer, ?_, hs'.chronological⟩
        rw [hs'.completed_eq, hs.completed_eq]

theorem Shelved.endWriting_completed (hs : Shelved s.self s.host.disk line [] current)
    {minKey maxKey : Int64} (hrun : endWriting minKey maxKey s = (.ok (), t)) :
    ∃ w f, s.self.writer = some w ∧ f.merged = false ∧
      t.self.completed = s.self.completed ++ [{ w.segment with footer := some f }] ∧
      t.self.Chronological := by
  cases current with
  | none =>
      have hw : s.self.writer = none := hs.writer
      have hgo : endWriting minKey maxKey s = (.error .noSession, s) := by simp [endWriting, hw]
      rw [hgo] at hrun
      cases hrun
  | some v =>
      obtain ⟨f, s1, hgo, -, -, hsession, -, hs'⟩ := hs.endWriting_run minKey maxKey
      rw [hgo] at hrun
      cases hrun
      refine ⟨v.writer, f, hs.writer, hsession, ?_, hs'.chronological⟩
      rw [hs'.completed_eq, hs.completed_eq, List.map_append]
      rfl

theorem Chronological.before_last (hc : a.Chronological) {ss : List Segment} {x : Segment}
    {f : Footer} (ha : a.completed = ss ++ [x]) (hf : x.footer = some f) :
    ∀ y ∈ ss, ∀ g ∈ y.footer, g.generation < f.generation := by
  intro y hy g hg
  have hx : x ∈ a.segments ∧ x.isComplete := mem_completed.mp (by simp [ha])
  obtain ⟨-, f', hdated⟩ := hc.dated x hx.1 hx.2
  have he : f' = f := Option.some.inj (hdated.footer.symm.trans hf)
  subst he
  have hrising := hc.rising
  rw [ha] at hrising
  have hlt := (List.pairwise_append.mp hrising).2.2 y hy x (List.mem_singleton_self x) g hg f' hf
  exact UInt64.lt_of_lt_of_le hlt hdated.mergedFrom_le

/--
In every state of a run the generations are in order. A session that starts is newer than every
segment, and so is the segment that it leaves at the end of the line. An archive that is closed and
opened again is the same archive.
-/
theorem Run.generations (hr : Run directory name s h) (hn : SegmentName.Plain name) :
    s.self.Chronological ∧
      (∀ t, startWriting s = (.ok (), t) → t.self.completed = s.self.completed ∧
        ∃ w, t.self.writer = some w ∧ ∀ x ∈ s.self.completed, ∀ f ∈ x.footer,
          f.generation < w.segment.index.toUInt64) ∧
      (∀ minKey maxKey t, endWriting minKey maxKey s = (.ok (), t) → ∃ w f,
        s.self.writer = some w ∧ f.merged = false ∧ f.generation = w.segment.index.toUInt64 ∧
        t.self.completed = s.self.completed ++ [{ w.segment with footer := some f }] ∧
        ∀ x ∈ s.self.completed, ∀ g ∈ x.footer, g.generation < f.generation) ∧
      (LeavesTorn s → ∃ t, reopen s = (.ok (), t) ∧ Run directory name t (h.after .reopen) ∧
        Restored s t) := by
  obtain ⟨hname, line, current, ht⟩ := hr.tracks hn
  refine ⟨ht.shelved.chronological, fun t hrun => ?_, fun minKey maxKey t hrun => ?_, fun htorn => ?_⟩
  · obtain ⟨w, hw, hsame, hc⟩ := ht.shelved.startWriting_completed ht.no_wrap hrun
    refine ⟨hsame, w, hw, fun x hx f hf => hc.newest w hw x ?_ f hf⟩
    rw [← hsame] at hx
    exact (mem_completed.mp hx).1
  · obtain ⟨w, f, hw, hsession, hcompleted, hc⟩ := ht.shelved.endWriting_completed hrun
    refine ⟨w, f, hw, hsession, ?_, hcompleted, hc.before_last hcompleted rfl⟩
    have hm : { w.segment with footer := some f } ∈ t.self.completed := by simp [hcompleted]
    obtain ⟨-, f', hdated⟩ := hc.dated _ (mem_completed.mp hm).1 rfl
    have he : f = f' := Option.some.inj hdated.footer
    subst he
    exact (hdated.session hsession).2
  · obtain ⟨t, line', hgo, -, -, -, hline, hs⟩ := ht.shelved.reopen_run (hname ▸ hn) htorn
    have hact : Action.reopen.run s = (.ok (), t) := hgo
    exact ⟨t, hgo, hr.succeeded hact fun _ => htorn, ht.shelved.restored hs hline⟩

def mergeOldest (s : Hosted Archive) : Option (Hosted Archive) :=
  match (Action.merge (s.self.completed.take 1)).run s with
  | (.ok (), s') => some s'
  | (.error _, _) => none

/-- The oldest of two segments is merged: its data keeps its place under a higher index. -/
theorem generations_after_merge :
    ∃ s t h, Run [] "x" s h ∧ s.self.completed.map (·.index) = [2, 1] ∧ s.self.Chronological ∧
      reopen s = (.ok (), t) ∧ t.self.completed.map Segment.shut = s.self.completed.map Segment.shut := by
  have hcheck : ((scenario "x" [.start, .store ⟨7, [1]⟩, .finish 0 10, .start, .store ⟨7, [2]⟩,
      .finish 0 10]).bind mergeOldest).any fun s =>
        s.self.writer.isNone && s.self.completed.map (·.index) == [2, 1] := by
    decide +kernel
  obtain ⟨s, hs, hgo⟩ := (Option.any_eq_true ..).mp hcheck
  obtain ⟨s0, hs0, hmerge⟩ := Option.bind_eq_some_iff.mp hs
  rw [Bool.and_eq_true, Option.isNone_iff_eq_none, beq_iff_eq] at hgo
  unfold mergeOldest at hmerge
  split at hmerge
  · rename_i s1 hrun
    cases hmerge
    have hr : Run [] "x" s _ := (run_of_scenario hs0).succeeded hrun (by simp)
    obtain ⟨hc, -, -, hreopen⟩ := Run.generations hr (by decide)
    obtain ⟨t, ht, -, hrestored⟩ := hreopen fun w hw => by
      rw [hgo.1] at hw
      cases hw
    exact ⟨s, t, _, hr, hgo.2, hc, ht, hrestored.completed⟩
  · cases hmerge

/-- Under a name with a separator a completed segment is not there after a reopening. -/
theorem reopen_drops_separated_name :
    ∃ s t h, Run [] "./x" s h ∧ s.self.writer = none ∧ s.self.completed.length = 1 ∧
      reopen s = (.ok (), t) ∧ t.self.segments = [] := by
  have hlost : (scenario "./x" [.start, .store ⟨7, [1]⟩, .finish 0 10]).any fun s =>
      s.self.writer.isNone && s.self.completed.length == 1 &&
        match reopen s with
        | (.ok (), t) => t.self.segments.isEmpty
        | (.error _, _) => false := by
    decide +kernel
  obtain ⟨s, hs, hgo⟩ := (Option.any_eq_true ..).mp hlost
  rw [Bool.and_eq_true, Bool.and_eq_true, Option.isNone_iff_eq_none, beq_iff_eq] at hgo
  obtain ⟨⟨hidle, hone⟩, hgo⟩ := hgo
  split at hgo
  · rename_i t hrun
    exact ⟨s, t, _, run_of_scenario hs, hidle, hone, hrun, List.isEmpty_iff.mp hgo⟩
  · cases hgo

end Archive

end MeteredStorage
