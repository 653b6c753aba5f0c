import MeteredStorage.Proofs.Archive.Merging

namespace MeteredStorage.Archive

variable {s : Hosted Archive} {line old rest us : List Volume} {current : Option Volume} {v : Volume}

/-- A run of completed segments is a part of the line. -/
theorem contiguousRun?_eq {completed inputs run : List Segment}
    (h : contiguousRun? completed inputs = some run) :
    ∃ first, run = (completed.drop first).take inputs.length := by
  simp only [contiguousRun?] at h
  split at h
  · exact ⟨_, (Option.some.inj h).symm⟩
  · cases h

/-- What there is to merge: nothing, no run, or a run, which has a newest footer as a rule. -/
theorem prepareMerge_choice (files : List Segment) (s : Hosted Archive) :
    s.self.mergeable files = [] ∧ prepareMerge files s = (.ok none, s) ∨
    s.self.mergeable files ≠ [] ∧
      (contiguousRun? s.self.completed (s.self.mergeable files) = none ∧
          prepareMerge files s = (.error .notContiguous, s) ∨
        ∃ run, contiguousRun? s.self.completed (s.self.mergeable files) = some run ∧
          (run.getLast?.bind Segment.footer = none ∧ prepareMerge files s = (.ok none, s) ∨
            ∃ newest, run.getLast?.bind Segment.footer = some newest ∧
              prepareMerge files s = (some <$> mergeRun run newest) s)) := by
  by_cases hempty : s.self.mergeable files = []
  · exact .inl ⟨hempty, by simp [prepareMerge, hempty]⟩
  refine .inr ⟨hempty, ?_⟩
  cases hrun : contiguousRun? s.self.completed (s.self.mergeable files) with
  | none => exact .inl ⟨rfl, by simp [prepareMerge, hempty, hrun]⟩
  | some run =>
      refine .inr ⟨run, rfl, ?_⟩
      cases hnewest : run.getLast?.bind Segment.footer with
      | none => exact .inl ⟨rfl, by simp [prepareMerge, hempty, hrun, hnewest]⟩
      | some newest => exact .inr ⟨newest, rfl, by simp [prepareMerge, hempty, hrun, hnewest]⟩

theorem Shelved.prepareMerge_cases (h : Shelved s.self s.host.disk line [] current)
    (hnext : s.self.nextIndex.toNat + 1 < 0x100000000) (files : List Segment) :
    prepareMerge files s = (.ok none, s) ∨ prepareMerge files s = (.error .notContiguous, s) ∨
    (∃ e s', prepareMerge files s = (.error e, s') ∧ Follows 1 s.self s'.self ∧
      Shelved s'.self s'.host.disk line [] current ∧
      (e = .indicesExhausted ↔ Location.maxSegments ≤ s.self.nextIndex.toNat)) ∨
    ∃ m s' front run back newest out, prepareMerge files s = (.ok (some m), s') ∧
      Prepared s s' line current m front run back newest out := by
  rcases prepareMerge_choice files s with ⟨-, hgo⟩ | ⟨-, ⟨-, hgo⟩ | ⟨segments, hrun,
    ⟨-, hgo⟩ | ⟨newest, hnewest, hstart⟩⟩⟩
  · exact .inl hgo
  · exact .inr (.inl hgo)
  · exact .inl hgo
  obtain ⟨first, rfl⟩ := contiguousRun?_eq hrun
  let run := (line.drop first).take (s.self.mergeable files).length
  let back := (line.drop first).drop (s.self.mergeable files).length
  have hline : line = line.take first ++ (run ++ back) := by
    rw [List.take_append_drop, List.take_append_drop]
  have hsegments : (s.self.completed.drop first).take (s.self.mergeable files).length =
      run.map Volume.segment := by
    rw [h.completed_eq, ← List.map_drop, ← List.map_take]
  rw [hsegments] at hnewest hstart
  obtain ⟨w, hlast, hn⟩ : ∃ w, run.getLast? = some w ∧ w.segment.footer = some newest := by
    rwa [List.getLast?_map, Option.bind_map, Option.bind_eq_some_iff] at hnewest
  rw [hline] at h
  rcases h.mergeRun_cases hlast hn hnext with ⟨e, s', hgo, hf, hs, he, -⟩ |
    ⟨m, out, s', hgo, hp⟩
  · refine .inr (.inr (.inl ⟨e, s', ?_, hf, by rw [hline]; exact hs, he⟩))
    rw [hstart, Task.map_run, hgo]
  · refine .inr (.inr (.inr ⟨m, s', line.take first, run, back, newest, out, ?_, ?_⟩))
    · rw [hstart, Task.map_run, hgo]
    · rw [← hline] at hp
      exact hp

theorem positions_run {front run back : List Segment}
    (h : ((front ++ (run ++ back)).map Segment.index).Nodup) :
    run.map (fun s => (front ++ (run ++ back)).findIdx (·.index == s.index)) =
      List.range' front.length run.length := by
  refine List.ext_getElem (by simp) fun i hi _ => ?_
  rw [List.length_map] at hi
  have hlt : front.length + i < (front ++ (run ++ back)).length := by
    simp only [List.length_append]
    omega
  have hget : (front ++ (run ++ back))[front.length + i] = run[i] := by
    rw [List.getElem_append_right (Nat.le_add_right ..), List.getElem_append_left (by omega)]
    simp
  rw [List.getElem_map, List.getElem_range', Nat.one_mul, List.findIdx_eq (by simp; omega)]
  refine ⟨by rw [hget]; simp, fun j hj => ?_⟩
  rw [Bool.eq_false_iff, Ne, beq_iff_eq, ← hget]
  intro he
  have hne := List.pairwise_iff_getElem.mp h j (front.length + i) (by simp; omega) (by simp; omega) hj
  simp only [List.getElem_map] at hne
  exact hne he

theorem foldl_min_eq {ns : List Nat} {least bound : Nat} (hm : least ∈ ns)
    (hle : ∀ n ∈ ns, least ≤ n) (hb : least ≤ bound) : ns.foldl min bound = least := by
  have hleast : (bound :: ns).min? = some least :=
    List.min?_eq_some_iff.mpr ⟨List.mem_cons_of_mem _ hm, fun n hn => by
      rcases List.mem_cons.mp hn with rfl | hn
      · exact hb
      · exact hle n hn⟩
  rw [List.min?_cons'] at hleast
  exact Option.some.inj hleast

/-- Segments that make up a part of the line, in whatever order they are given, are a run. -/
theorem contiguousRun?_of_perm {front run back inputs : List Segment}
    (h : ((front ++ (run ++ back)).map Segment.index).Nodup) (hne : run ≠ [])
    (hp : (inputs.map Segment.index).Perm (run.map Segment.index)) :
    contiguousRun? (front ++ (run ++ back)) inputs = some run := by
  have hlength : inputs.length = run.length := by simpa using hp.length_eq
  have hpositions : (inputs.map fun s => (front ++ (run ++ back)).findIdx (·.index == s.index)).Perm
      (List.range' front.length run.length) := by
    rw [← positions_run h]
    have hmap := hp.map fun i => (front ++ (run ++ back)).findIdx (·.index == i)
    rwa [List.map_map, List.map_map] at hmap
  have hfirst : (inputs.map fun s => (front ++ (run ++ back)).findIdx (·.index == s.index)).foldl min
      (front ++ (run ++ back)).length = front.length := by
    have hpos := List.length_pos_iff.mpr hne
    refine foldl_min_eq (hpositions.mem_iff.mpr ?_) (fun n hn => ?_) (by simp)
    · exact List.mem_range'_1.mpr (by omega)
    · exact (List.mem_range'_1.mp (hpositions.mem_iff.mp hn)).1
  unfold contiguousRun?
  simp only [hfirst, hlength]
  rw [if_pos, List.drop_left, List.take_left]
  rw [List.all_eq_true]
  intro i hi
  rw [List.contains_eq_mem, decide_eq_true_eq]
  exact hpositions.mem_iff.mpr hi

theorem Shelved.nodup_indices {a : Archive} {d : Disk} (h : Shelved a d line old current) :
    ((line.map Volume.segment).map Segment.index).Nodup := by
  rw [List.map_map]
  refine List.pairwise_map.mpr ((h.kept.holds.apart.sublist ?_).imp fun ha => ha.index)
  exact (List.sublist_append_left ..).trans (List.sublist_append_right ..)

theorem Shelved.mergeable_eq (h : Shelved s.self s.host.disk line [] current) {files : List Segment}
    (hf : files ⊆ line.map Volume.segment) : s.self.mergeable files = files := by
  refine List.filter_eq_self.mpr fun t ht => ?_
  obtain ⟨v, hv, rfl⟩ := List.mem_map.mp (hf ht)
  have hm : v ∈ current.toList ++ (line ++ []) := by simp [hv]
  simp [(h.mem_line hv).2, h.kept.holds.segment?_eq hm]

/-- A merge of segments that make up a part of the line is a merge of that run. -/
theorem Shelved.prepareMerge_run (h : Shelved s.self s.host.disk line [] current)
    {files front run back : List Segment}
    (hc : s.self.completed = front ++ (run ++ back)) (hne : run ≠ [])
    (hp : ((s.self.mergeable files).map Segment.index).Perm (run.map Segment.index)) :
    ∃ first middle last w newest, line = first ++ (middle ++ last) ∧
      front = first.map Volume.segment ∧ run = middle.map Volume.segment ∧
      back = last.map Volume.segment ∧ middle.getLast? = some w ∧ w.segment.footer = some newest ∧
      prepareMerge files s = (some <$> mergeRun run newest) s := by
  have hnodup := h.nodup_indices
  rw [← h.completed_eq, hc] at hnodup
  have hrun : contiguousRun? s.self.completed (s.self.mergeable files) = some run := by
    rw [hc]
    exact contiguousRun?_of_perm hnodup hne hp
  have hsome : s.self.mergeable files ≠ [] := by
    rintro hnil
    rw [hnil] at hp
    exact hne (by simpa using hp.symm.eq_nil)
  have hline := h.completed_eq
  rw [hc] at hline
  obtain ⟨first, rest, rfl, rfl, hrest⟩ := List.map_eq_append_iff.mp hline.symm
  obtain ⟨middle, last, rfl, rfl, rfl⟩ := List.map_eq_append_iff.mp hrest
  have hmiddle : middle ≠ [] := fun hnil => hne (by rw [hnil]; rfl)
  obtain ⟨w, hlast⟩ := Option.isSome_iff_exists.mp (List.getLast?_isSome.mpr hmiddle)
  have hw : w ∈ first ++ (middle ++ last) :=
    List.mem_append_right _ (List.mem_append_left _ (List.mem_of_getLast? hlast))
  obtain ⟨newest, hn⟩ := Option.isSome_iff_exists.mp (h.mem_line hw).2
  refine ⟨first, middle, last, w, newest, rfl, rfl, rfl, rfl, hlast, hn, ?_⟩
  simp [prepareMerge, hsome, hrun, hlast, hn]

theorem Shelved.prepareMerge_front (h : Shelved s.self s.host.disk line [] current)
    (hnext : s.self.nextIndex.toNat + 1 < 0x100000000) {files : List Segment}
    (hp : files <+: line.map Volume.segment) (hne : files ≠ []) :
    (∃ e s', prepareMerge files s = (.error e, s') ∧ Follows 1 s.self s'.self ∧
      Shelved s'.self s'.host.disk line [] current ∧
      (e = .indicesExhausted ↔ Location.maxSegments ≤ s.self.nextIndex.toNat) ∧
      Disk.Within (Halted s.self (current.toList ++ (line ++ [])) s.host.disk s'.host.disk)
        s.host.disk s'.host.disk) ∨
    ∃ m s' run back newest out, prepareMerge files s = (.ok (some m), s') ∧
      run.map Volume.segment = files ∧ Prepared s s' line current m [] run back newest out := by
  have hall := h.mergeable_eq hp.subset
  obtain ⟨others, hothers⟩ := hp
  have hc : s.self.completed = [] ++ (files ++ others) := h.completed_eq.trans hothers.symm
  obtain ⟨first, run, back, w, newest, rfl, hfirst, rfl, rfl, hlast, hn, hstart⟩ :=
    h.prepareMerge_run hc hne (.of_eq (by rw [hall]))
  obtain rfl : first = [] := List.map_eq_nil_iff.mp hfirst.symm
  rw [Task.map_run] at hstart
  rcases h.mergeRun_cases hlast hn hnext with ⟨e, s', hgo, hf, hs, he, -, hleft⟩ |
    ⟨m, out, s', hgo, hp⟩
  · refine .inl ⟨e, s', ?_, hf, hs, he, hleft⟩
    rw [hstart, hgo]
  · refine .inr ⟨m, s', run, back, newest, out, ?_, rfl, hp⟩
    rw [hstart, hgo]

theorem Shelved.perm_old {a : Archive} {d : Disk} (h : Shelved a d line old current)
    (hp : old.Perm rest) : Shelved a d line rest current := by
  have hall : (line ++ old).Perm (line ++ rest) := hp.append_left line
  exact ⟨h.kept.perm (hall.append_left _), fun v hv => h.complete v (hall.mem_iff.mpr hv), h.unfinished,
    h.writer, h.ranked⟩

theorem Shelved.removeSegment_run (h : Shelved s.self s.host.disk line (v :: old) current) :
    ∃ s', removeSegment v.segment s = (.ok (), s') ∧ Follows 0 s.self s'.self ∧
      Shelved s'.self s'.host.disk line old current := by
  have hperm : (current.toList ++ (line ++ v :: old)).Perm
      (v :: (current.toList ++ (line ++ old))) := by
    rw [← List.append_assoc, ← List.append_assoc]
    exact List.perm_middle
  obtain ⟨s', hrun, hself, hk⟩ := (h.kept.perm hperm).removeSegment_run
  refine ⟨s', hrun, by rw [hself]; exact ⟨rfl, rfl, rfl⟩, hk, fun u hu => h.complete u ?_,
    h.unfinished, by rw [hself]; exact h.writer, h.ranked⟩
  rcases List.mem_append.mp hu with hu | hu
  · exact List.mem_append_left _ hu
  · exact List.mem_append_right _ (List.mem_cons_of_mem _ hu)

theorem Shelved.removeSegments_run (h : Shelved s.self s.host.disk line (us ++ rest) current) :
    ∃ s', removeSegments (us.map Volume.segment) s = (.ok (), s') ∧ Follows 0 s.self s'.self ∧
      Shelved s'.self s'.host.disk line rest current := by
  induction us generalizing s with
  | nil => exact ⟨s, rfl, Follows.refl _, h⟩
  | cons u us ih =>
      obtain ⟨s1, hrun, hf, hs⟩ := Shelved.removeSegment_run h
      obtain ⟨s2, hrest, hf', hs'⟩ := ih hs
      refine ⟨s2, ?_, hf.trans hf', hs'⟩
      rw [List.map_cons, removeSegments, Task.bind_ok hrun, hrest]

theorem Shelved.concludeMerge_run (h : Shelved s.self s.host.disk line old current) (m : Merge) :
    ∃ s', concludeMerge m s = (.ok (), s') ∧ Follows 0 s.self s'.self ∧
      Shelved s'.self s'.host.disk line old current := by
  let event := Event.mergeCompleted m.output.index m.moves.length (alignToPage m.dataSize)
    m.inputs.length
  refine ⟨⟨{ s.self with counts := { s.self.counts with merges := s.self.counts.merges + 1 } },
    { s.host with events := event :: s.host.events }⟩, ?_, ⟨rfl, rfl, rfl⟩,
    h.congr rfl rfl rfl rfl rfl⟩
  simp only [concludeMerge, Task.bind_run, h.kept.syncDirectory_run, count_run, Hosted.report_run]
  rfl

theorem Prepared.finishMerge_run {s' : Hosted Archive} {m : Merge} {front run back : List Volume}
    {newest : Footer} {out : Option Volume}
    (h : Prepared s s' line current m front run back newest out) :
    ∃ s'', finishMerge m s' = (.ok (), s'') ∧ Follows 0 s'.self s''.self ∧
      Shelved s''.self s''.host.disk (front ++ (out.toList ++ back)) [] current := by
  have hold : run.Perm (run.reverse ++ []) := by
    rw [List.append_nil]
    exact (List.reverse_perm run).symm
  obtain ⟨s1, hremove, hf, hs⟩ := (h.shelved.perm_old hold).removeSegments_run
  obtain ⟨s2, hconclude, hf', hs'⟩ := hs.concludeMerge_run m
  refine ⟨s2, ?_, hf.trans hf', hs'⟩
  rw [finishMerge, h.inputs, ← List.map_reverse, Task.bind_ok hremove, hconclude]

end MeteredStorage.Archive
