import MeteredStorage.Proofs.Archive.Recency

namespace MeteredStorage

namespace Segment

/-- In a ranked run only its sole member can cover the merge of the run. -/
theorem Ranked.sole_of_covers {run : List Volume} (h : Ranked (run.map Volume.segment)) {w : Volume}
    (hw : w ∈ run) {origin generation : Nat} (ho : ∀ u ∈ run, origin ≤ u.segment.origin)
    (hg : ∀ u ∈ run, u.segment.generation ≤ generation) (hwo : w.segment.origin ≤ origin)
    (hwg : generation ≤ w.segment.generation) : run = [w] := by
  have hrising := List.pairwise_map.mp h.rising
  have hall : ∀ u ∈ run, u = w := by
    intro u hu
    have hdu := (h.dated _ (List.mem_map_of_mem hu)).origin_le
    have hdw := (h.dated _ (List.mem_map_of_mem hw)).origin_le
    have huo := ho u hu
    have hug := hg u hu
    rcases cases_of_pairwise hrising hu hw with he | hlt | hlt
    · exact he
    · omega
    · omega
  cases run with
  | nil => cases hw
  | cons first rest =>
      have hfirst := hall first (List.mem_cons_self ..)
      cases rest with
      | nil => rw [hfirst]
      | cons second rest =>
          have hsecond := hall second (by simp)
          have hlt := (List.pairwise_cons.mp hrising).1 second (by simp)
          have hd := (h.dated _ (List.mem_map_of_mem hw)).origin_le
          rw [hfirst, hsecond] at hlt
          omega

end Segment

namespace Archive

variable {s s' : Hosted Archive} {line front run back rest : List Volume} {current : Option Volume}
  {m : Merge} {newest : Footer} {o : Volume}

/-- The sole input of a merge is itself the output of one, and still there. -/
def Mutual (run rest : List Volume) : Prop :=
  ∃ w, run = [w] ∧ w ∈ rest ∧ ∃ f, w.segment.footer = some f ∧ f.merged = true

structure Overlap (front run back rest : List Volume) (newest : Footer) (o : Volume) : Prop where
  line : Segment.Ranked ((front ++ (run ++ back)).map Volume.segment)
  replaced : Segment.Ranked ((front ++ o :: back).map Volume.segment)
  last : ∃ w, run.getLast? = some w ∧ w.segment.footer = some newest
  merged : Merged run newest o
  left : ∀ w ∈ rest, w ∈ run
  index : ∀ v ∈ front ++ o :: back ++ rest, ∀ f, v.segment.footer = some f → f.index = v.segment.index
  newer : ∀ w ∈ rest, w.segment.index ≠ o.segment.index
  complete : ∀ v ∈ front ++ o :: back ++ rest, v.segment.isComplete

theorem Overlap.generation_le (h : Overlap front run back rest newest o) :
    ∀ u ∈ run, u.segment.generation ≤ o.segment.generation := by
  obtain ⟨w, hlast, hw⟩ := h.last
  have hrun : Segment.Ranked (run.map Volume.segment) := h.line.sublist
    (((List.sublist_append_left ..).trans (List.sublist_append_right ..)).map _)
  rw [h.merged.generation, ← Segment.generation_of_footer hw]
  intro u hu
  obtain ⟨init, rfl⟩ := List.getLast?_eq_some_iff.mp hlast
  rcases List.mem_append.mp hu with hu | hu
  · have hr := List.pairwise_map.mp hrun.generation_rising
    exact Nat.le_of_lt ((List.pairwise_append.mp hr).2.2 u hu w (List.mem_singleton_self _))
  · exact Nat.le_of_eq (by rw [List.mem_singleton.mp hu])

theorem Overlap.rest_covered (h : Overlap front run back rest newest o) {w : Volume} (hw : w ∈ rest) :
    isCovered ((front ++ o :: back ++ rest).map Volume.segment) w.segment = true := by
  have hmem : o ∈ front ++ o :: back ++ rest := by simp
  obtain ⟨f, hf, hmerged, -⟩ := h.merged.footer
  obtain ⟨g, hg⟩ := Option.isSome_iff_exists.mp (h.complete w (List.mem_append_right _ hw))
  refine Segment.isCovered_iff.mpr ⟨g, hg, o.segment, List.mem_map_of_mem hmem, f, hf, ?_⟩
  refine (Segment.covers_iff hf hg).mpr ⟨?_, hmerged, h.merged.origin_le w (h.left w hw),
    h.generation_le w (h.left w hw)⟩
  rw [h.index o hmem f hf, h.index w (List.mem_append_right _ hw) g hg]
  exact (h.newer w hw).symm

theorem Overlap.side_uncovered (h : Overlap front run back rest newest o) {v : Volume}
    (hv : v ∈ front ∨ v ∈ back) :
    isCovered ((front ++ o :: back ++ rest).map Volume.segment) v.segment = false := by
  rw [Bool.eq_false_iff, Ne, Segment.isCovered_iff]
  rintro ⟨g, hg, t, ht, f, hf, hcovers⟩
  obtain ⟨u, hu, rfl⟩ := List.mem_map.mp ht
  have hcovered (ss : List Segment) (hs : u.segment ∈ ss) : isCovered ss v.segment = true :=
    Segment.isCovered_iff.mpr ⟨g, hg, u.segment, hs, f, hf, hcovers⟩
  rcases List.mem_append.mp hu with hu | hu
  · have hvl : v ∈ front ++ o :: back := by rcases hv with hv | hv <;> simp [hv]
    have hn := h.replaced.not_covered (List.mem_map_of_mem hvl)
    rw [hcovered _ (List.mem_map_of_mem hu)] at hn
    cases hn
  · have hvl : v ∈ front ++ (run ++ back) := by rcases hv with hv | hv <;> simp [hv]
    have hul : u ∈ front ++ (run ++ back) := by simp [h.left u hu]
    have hn := h.line.not_covered (List.mem_map_of_mem hvl)
    rw [hcovered _ (List.mem_map_of_mem hul)] at hn
    cases hn

/-- The output is covered exactly by a sole input that is a merge. -/
theorem Overlap.output_covered_iff (h : Overlap front run back rest newest o) :
    isCovered ((front ++ o :: back ++ rest).map Volume.segment) o.segment = true ↔
      Mutual run rest := by
  have hmem : o ∈ front ++ o :: back ++ rest := by simp
  have hrun : Segment.Ranked (run.map Volume.segment) := h.line.sublist
    (((List.sublist_append_left ..).trans (List.sublist_append_right ..)).map _)
  rw [Segment.isCovered_iff]
  constructor
  · rintro ⟨g, hg, t, ht, f, hf, hcovers⟩
    obtain ⟨u, hu, rfl⟩ := List.mem_map.mp ht
    rcases List.mem_append.mp hu with hu | hu
    · have hol : o ∈ front ++ o :: back := by simp
      have hn := h.replaced.not_covered (List.mem_map_of_mem hol)
      have hc : isCovered ((front ++ o :: back).map Volume.segment) o.segment = true :=
        Segment.isCovered_iff.mpr ⟨g, hg, u.segment, List.mem_map_of_mem hu, f, hf, hcovers⟩
      rw [hc] at hn
      cases hn
    · obtain ⟨-, hmerged, horigin, hgeneration⟩ := (Segment.covers_iff hf hg).mp hcovers
      exact ⟨u, hrun.sole_of_covers (h.left u hu) h.merged.origin_le h.generation_le horigin hgeneration,
        hu, f, hf, hmerged⟩
  · rintro ⟨w, rfl, hw, f, hf, hmerged⟩
    have hwm : w ∈ front ++ o :: back ++ rest := List.mem_append_right _ hw
    obtain ⟨g, hg⟩ := Option.isSome_iff_exists.mp (h.complete o hmem)
    refine ⟨g, hg, w.segment, List.mem_map_of_mem hwm, f, hf, ?_⟩
    refine (Segment.covers_iff hf hg).mpr ⟨?_, hmerged, ?_, ?_⟩
    · rw [h.index w hwm f hf, h.index o hmem g hg]
      exact h.newer w hw
    · obtain ⟨u, hu, he⟩ := h.merged.origin_mem
      exact Nat.le_of_eq (by rw [he, List.mem_singleton.mp hu])
    · obtain ⟨u, hlast, hu⟩ := h.last
      cases hlast
      rw [h.merged.generation, ← Segment.generation_of_footer hu]
      exact Nat.le_refl _

/-- What the next opening keeps: the line with the output, or without it if both cover each other. -/
theorem Overlap.uncovered_eq (h : Overlap front run back rest newest o) [Decidable (Mutual run rest)] :
    uncovered (front ++ o :: back ++ rest) =
      if Mutual run rest then front ++ back else front ++ o :: back := by
  have hside {v : Volume} (hv : v ∈ front ∨ v ∈ back) :
      (!isCovered ((front ++ o :: back ++ rest).map Volume.segment) v.segment) = true := by
    rw [h.side_uncovered hv]
    rfl
  have hrest : rest.filter (fun v =>
      !isCovered ((front ++ o :: back ++ rest).map Volume.segment) v.segment) = [] := by
    rw [List.filter_eq_nil_iff]
    intro v hv
    rw [h.rest_covered hv]
    simp
  rw [uncovered, List.filter_append, hrest, List.append_nil, List.filter_append, List.filter_cons,
    List.filter_eq_self.mpr fun v hv => hside (.inl hv),
    List.filter_eq_self.mpr fun v hv => hside (.inr hv)]
  by_cases hm : Mutual run rest
  · rw [if_pos hm, h.output_covered_iff.mpr hm]
    rfl
  · rw [if_neg hm, Bool.eq_false_iff.mpr (mt h.output_covered_iff.mp hm)]
    rfl

/-- The visit of the latest entry of a key in the line leads to its data. -/
theorem Shelved.fetch_latest {a : Archive} {d : Disk} {vs : List Volume}
    (h : Shelved a d line [] current) (hv : ∀ v ∈ vs, v ∈ line) (key : Int64) :
    (((Entry.latest key (Volume.allEntries vs)).map fun e => (e.record.key, e.location)).map
      fun visit => a.fetch d visit.2 .data 0x100000000) =
      (Entry.latest key (Volume.allEntries vs)).map fun e => .ok e.record.data := by
  cases he : Entry.latest key (Volume.allEntries vs) with
  | none => rfl
  | some e =>
      obtain ⟨v, hm, hev⟩ := List.mem_flatMap.mp (Entry.latest_mem he).1
      have hvs : v ∈ current.toList ++ (line ++ []) := by simp [hv v hm]
      have hfits : e.record.Fits := by
        refine (h.kept.holds.stored v hvs).fits _ ?_
        rw [← Volume.map_entries]
        exact List.mem_map_of_mem hev
      rw [Option.map_some, Option.map_some, Option.map_some,
        h.kept.holds.fetch hvs hev .data (Nat.le_of_lt hfits)]
      rfl

def lastData (a : Archive) (d : Disk) (key : Int64) : Option (Except ArchiveError Bytes) :=
  ((a.replay d).1.filter (·.1 == key)).getLast?.map fun visit =>
    a.fetch d visit.2 .data 0x100000000

theorem Shelved.lastData_eq {a : Archive} {d : Disk} (h : Shelved a d line [] current)
    (key : Int64) :
    a.lastData d key =
      (Entry.latest key (Volume.allEntries line)).map fun e => .ok e.record.data := by
  rw [lastData, h.replay_run]
  simp only [Entry.getLast?_visits]
  exact h.fetch_latest (fun _ hv => hv) key

theorem Prepared.overlap {out : Option Volume}
    (hl : Shelved s.self s.host.disk line [] current)
    (hp : Prepared s s' line current m front run back newest out) (ho : out = some o)
    (hrest : ∀ w ∈ rest, w ∈ run) : Overlap front run back rest newest o := by
  subst ho
  obtain ⟨hmerged, hindex⟩ := hp.merged o rfl
  have hmem {v : Volume} (hv : v ∈ front ++ o :: back ++ rest) :
      v ∈ front ++ ((some o).toList ++ back) ++ run := by
    rcases List.mem_append.mp hv with hv | hv
    · exact List.mem_append_left _ hv
    · exact List.mem_append_right _ (hrest v hv)
  have hline : Segment.Ranked (line.map Volume.segment) :=
    hl.ranked.sublist ((List.sublist_append_left ..).map _)
  rw [hp.line_eq] at hline
  refine ⟨hline, hp.shelved.ranked.sublist ((List.sublist_append_left ..).map _), hp.last, hmerged,
    hrest, fun v hv f hf => ?_, fun w hw => ?_, fun v hv => hp.shelved.complete v (hmem hv)⟩
  · exact ((hp.shelved.kept.holds.stored v (List.mem_append_right _ (hmem hv))).footer f hf).index
  · have hwl : w ∈ current.toList ++ (line ++ []) := by
      rw [hp.line_eq]
      simp [hrest w hw]
    intro he
    have hlt := hl.kept.holds.index_lt w hwl
    rw [he, hindex] at hlt
    exact Nat.lt_irrefl _ hlt

theorem Prepared.partly_removed {out : Option Volume} {removed : List Segment}
    (hp : Prepared s s' line current m front run back newest out)
    (hsub : removed.Sublist m.inputs) {s'' : Hosted Archive}
    (hrun : removeSegments removed s' = (.ok (), s'')) :
    ∃ rest, (∀ w ∈ rest, w ∈ run) ∧ (∀ w, run = [w] → (w ∈ rest ↔ removed = [])) ∧
      Follows 0 s'.self s''.self ∧
      Shelved s''.self s''.host.disk (front ++ (out.toList ++ back)) rest current := by
  rw [hp.inputs, ← List.map_reverse] at hsub
  obtain ⟨us, hus, rfl⟩ := List.sublist_map_iff.mp hsub
  obtain ⟨rest, hperm⟩ := hus.exists_perm_append
  have hold : run.Perm (us ++ rest) := (List.reverse_perm run).symm.trans hperm
  obtain ⟨s1, hgo, hf, hs⟩ := (hp.shelved.perm_old hold).removeSegments_run
  rw [hgo] at hrun
  cases hrun
  refine ⟨rest, fun w hw => hold.mem_iff.mpr (List.mem_append_right _ hw), fun w hw => ?_, hf, hs⟩
  subst hw
  rw [List.map_eq_nil_iff]
  have hlength := hold.length_eq
  rw [List.length_append, List.length_singleton] at hlength
  constructor
  · intro hm
    have := List.length_pos_of_mem hm
    rw [← List.length_eq_zero_iff]
    omega
  · rintro rfl
    exact hold.mem_iff.mp (List.mem_singleton_self w)

theorem indices_of_shut {ws vs : List Volume}
    (hp : (ws.map Volume.shut).Perm (vs.map Volume.shut)) {index : UInt32} :
    (∃ w ∈ ws, w.segment.index = index) ↔ ∃ v ∈ vs, v.segment.index = index := by
  have hmap (us : List Volume) :
      (∃ u ∈ us, u.segment.index = index) ↔ ∃ u ∈ us.map Volume.shut, u.segment.index = index := by
    constructor
    · rintro ⟨u, hu, hi⟩
      exact ⟨u.shut, List.mem_map_of_mem hu, hi⟩
    · rintro ⟨u, hu, hi⟩
      obtain ⟨v, hv, rfl⟩ := List.mem_map.mp hu
      exact ⟨v, hv, hi⟩
  rw [hmap ws, hmap vs]
  simp only [hp.mem_iff]

theorem Kept.isSome_segment? {a : Archive} {d : Disk} {ws vs : List Volume} (hk : Kept a d ws)
    (hp : (ws.map Volume.shut).Perm (vs.map Volume.shut)) (index : UInt32) :
    (a.segment? index).isSome ↔ ∃ v ∈ vs, v.segment.index = index := by
  rw [← indices_of_shut hp]
  constructor
  · intro hsome
    obtain ⟨t, ht⟩ := Option.isSome_iff_exists.mp hsome
    obtain ⟨w, hw, rfl⟩ := hk.holds.mem_segments.mp (List.mem_of_find?_eq_some ht)
    exact ⟨w, hw, by simpa using List.find?_some ht⟩
  · rintro ⟨w, hw, rfl⟩
    rw [hk.holds.segment?_eq hw]
    rfl

def SoleMerge (m : Merge) : Prop :=
  ∃ w f, m.inputs = [w] ∧ w.footer = some f ∧ f.merged = true

theorem Prepared.mutual_iff {out : Option Volume} {removed : List Segment}
    (hp : Prepared s s' line current m front run back newest out)
    (hsole : ∀ w, run = [w] → (w ∈ rest ↔ removed = [])) :
    Mutual run rest ↔ removed = [] ∧ SoleMerge m := by
  rw [SoleMerge, hp.inputs]
  constructor
  · rintro ⟨w, hw, hmem, f, hfooter, hmerged⟩
    exact ⟨(hsole w hw).mp hmem, w.segment, f, by rw [hw]; rfl, hfooter, hmerged⟩
  · rintro ⟨hnone, t, f, hinputs, hfooter, hmerged⟩
    rw [← List.map_reverse] at hinputs
    obtain ⟨w, hw, rfl⟩ := List.map_eq_singleton_iff.mp hinputs
    have hrun : run = [w] := by simpa using congrArg List.reverse hw
    exact ⟨w, hrun, (hsole w hrun).mpr hnone, f, hfooter, hmerged⟩

/--
A merge is interrupted after its output has been completed, with any part of its inputs removed.
The next opening keeps the output and replays the same data as after the whole merge, unless the
merge has a sole input that is itself a merge and is still there: then it removes both. The merge is
one of a run in which no index was refused and no earlier reopening met a session that looked completed;
a session open at the interruption does not look so either.
-/
theorem Run.interrupted_merge {directory : Path} {name : String} {h : History}
    {s1 s2 : Hosted Archive} {files removed : List Segment} (hr : Run directory name s h)
    (hn : SegmentName.Plain name) (hp : prepareMerge files s = (.ok (some m), s1))
    (hm : m.moves ≠ []) (hsub : removed.Sublist m.inputs)
    (hremoved : removeSegments removed s1 = (.ok (), s2)) (ht : LeavesTorn s2) :
    ∃ a host s3, init s.self.directory s.self.name s2.host = (.ok a, host) ∧
      (a.replay host.disk).2 = .ok () ∧ finishMerge m s1 = (.ok (), s3) ∧
      (¬(removed = [] ∧ SoleMerge m) → (a.segment? m.output.index).isSome ∧
        ∀ key, a.lastData host.disk key = s3.self.lastData s3.host.disk key) ∧
      (removed = [] ∧ SoleMerge m → ¬(a.segment? m.output.index).isSome ∧
        ∀ w ∈ m.inputs, ¬(a.segment? w.index).isSome) := by
  obtain ⟨hname, line, current, htracks⟩ := hr.tracks hn
  rcases htracks.shelved.prepareMerge_cases htracks.no_wrap files with hgo | hgo |
    ⟨e, s', hgo, -⟩ | ⟨m', s', front, run, back, newest, out, hgo, hprep⟩
  · rw [hgo] at hp
    cases hp
  · rw [hgo] at hp
    cases hp
  · rw [hgo] at hp
    cases hp
  rw [hgo] at hp
  cases hp
  obtain ⟨o, rfl⟩ := Option.ne_none_iff_exists'.mp (mt hprep.empty.mp hm)
  obtain ⟨rest, hrest, hsole, hf, hs⟩ := hprep.partly_removed hsub hremoved
  obtain ⟨s3, hfinish, -, hs3⟩ := hprep.finishMerge_run
  have hover := hprep.overlap htracks.shelved rfl hrest
  have hindex : o.segment.index = m.output.index := by rw [(hprep.merged o rfl).2, hprep.output]
  obtain ⟨n, hfiled⟩ := hs.kept.filed
  rw [hf.directory, hf.name, hprep.follows.directory, hprep.follows.name] at hfiled
  obtain ⟨a, host, ws, hinit, -, -, hwriter, -, hkept, hperm⟩ :=
    hfiled.init_run (hname ▸ hn) fun v hv => hs.torn_or_complete ht hv
  rw [hs.filter_complete, Option.toList_some, List.singleton_append] at hperm
  have hdecide := Classical.propDecidable (Mutual run rest)
  have hcomplete {v : Volume} (hv : v ∈ front ++ o :: back) : v.segment.isComplete :=
    hover.complete v (List.mem_append_left _ hv)
  by_cases hbad : Mutual run rest
  · have hclear := hover.uncovered_eq
    rw [if_pos hbad] at hclear
    rw [hclear] at hperm
    have hsides : (front ++ back).Sublist (front ++ o :: back) :=
      List.Sublist.append_left (List.sublist_cons_self ..) _
    obtain ⟨line', -, hshelved⟩ := Shelved.of_kept hkept hperm hwriter
      (fun v hv => hcomplete (hsides.subset hv)) (hover.replaced.sublist (hsides.map _))
    -- The numbers of the output and of the sole input occur once in the directory.
    have hmutual := (hprep.mutual_iff hsole).mp hbad
    obtain ⟨w, hrun, hw, -⟩ := hbad
    have hgone (index : UInt32) (hi : index = o.segment.index ∨ index = w.segment.index) :
        ¬(a.segment? index).isSome := by
      rw [hkept.isSome_segment? hperm]
      rintro ⟨v, hv, he⟩
      have hnodup : ((front ++ o :: back ++ rest).map (·.segment.index)).Nodup := by
        have hall := hfiled.indices
        rw [Option.toList_some, List.singleton_append, List.map_append] at hall
        exact (List.nodup_append.mp hall).2.1
      rw [List.map_append] at hnodup
      obtain ⟨hleft, -, hcross⟩ := List.nodup_append.mp hnodup
      rw [List.map_append, List.map_cons] at hleft
      rcases hi with hi | hi
      · have hnot := (List.nodup_cons.mp (List.perm_middle.nodup hleft)).1
        rw [← List.map_append] at hnot
        exact hnot (List.mem_map.mpr ⟨v, hv, he.trans hi⟩)
      · exact hcross _ (List.mem_map_of_mem (hsides.subset hv)) _ (List.mem_map_of_mem hw)
          (he.trans hi)
    refine ⟨a, host, s3, hinit, by rw [hshelved.replay_run], hfinish, fun hnot => ?_, fun _ => ?_⟩
    · exact absurd hmutual hnot
    · refine ⟨hgone _ (.inl hindex.symm), fun t hti => hgone _ (.inr ?_)⟩
      rw [hprep.inputs, hrun] at hti
      rw [List.mem_singleton.mp hti]
  · have hclear := hover.uncovered_eq
    rw [if_neg hbad] at hclear
    rw [hclear] at hperm
    obtain ⟨line', hline, hshelved⟩ := Shelved.of_kept hkept hperm hwriter
      (fun v hv => hcomplete hv) hover.replaced
    refine ⟨a, host, s3, hinit, by rw [hshelved.replay_run], hfinish, fun _ => ⟨?_, fun key => ?_⟩,
      fun hmutual => absurd ((hprep.mutual_iff hsole).mpr hmutual) hbad⟩
    · exact (hkept.isSome_segment? hperm _).mpr ⟨o, by simp, hindex⟩
    · rw [hshelved.lastData_eq, hs3.lastData_eq, allEntries_of_shut hline]
      rfl

def mergesTwice (s : Hosted Archive) : Bool :=
  match (Action.merge s.self.completed).run s with
  | (.ok (), s1) =>
    match prepareMerge s1.self.completed s1 with
    | (.ok (some m), s2) => !m.moves.isEmpty && s2.self.writer.isNone &&
        (m.inputs.length == 1 && m.inputs.all (·.footer.any (·.merged)))
    | _ => false
  | _ => false

/-- A merge of a merge that is interrupted at once loses both files at the next opening. -/
theorem interrupted_merge_sole :
    ∃ s h m s1 a host, Run [] "x" s h ∧ Entry.latestRecord 7 h.stored = some ⟨7, [1]⟩ ∧
      prepareMerge s.self.completed s = (.ok (some m), s1) ∧
      init s.self.directory s.self.name s1.host = (.ok a, host) ∧
      ¬(a.segment? m.output.index).isSome ∧ ∀ w ∈ m.inputs, ¬(a.segment? w.index).isSome := by
  have hcheck : (scenario "x" [.start, .store ⟨7, [1]⟩, .finish 0 10]).any mergesTwice := by
    decide +kernel
  obtain ⟨s0, hs0, hgo⟩ := (Option.any_eq_true ..).mp hcheck
  have hrun : Run [] "x" s0 ⟨[⟨7, [1]⟩], [], [(0, 10)]⟩ := run_of_scenario hs0
  unfold mergesTwice at hgo
  split at hgo
  · rename_i s hmerge
    have hmerged : Run [] "x" s ⟨[⟨7, [1]⟩], [], [(0, 10)]⟩ := hrun.succeeded hmerge (by simp)
    split at hgo
    · rename_i m s1 hprepare
      simp only [Bool.and_eq_true, Bool.not_eq_true', List.isEmpty_eq_false_iff, beq_iff_eq,
        List.all_eq_true, Option.any_eq_true, Option.isNone_iff_eq_none] at hgo
      obtain ⟨⟨hmoves, hidle⟩, hone, hfooters⟩ := hgo
      obtain ⟨w, hw⟩ := List.length_eq_one_iff.mp hone
      obtain ⟨f, hf, hflag⟩ := hfooters w (by rw [hw]; exact List.mem_singleton_self w)
      obtain ⟨a, host, s3, hinit, -, -, -, hlost⟩ := Run.interrupted_merge hmerged (by decide) hprepare
        hmoves (List.nil_sublist _) rfl fun w hw => by rw [hidle] at hw; cases hw
      obtain ⟨hout, hin⟩ := hlost ⟨rfl, w, f, hw, hf, hflag⟩
      exact ⟨s, _, m, s1, a, host, hmerged, by decide, hprepare, hinit, hout, hin⟩
    · cases hgo
  · cases hgo

end Archive

end MeteredStorage
