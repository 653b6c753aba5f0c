import MeteredStorage.Proofs.Archive.Interruption
import MeteredStorage.Proofs.Archive.Reached

namespace MeteredStorage.Archive

def lastDataIn (a : Archive) (d : Disk) (ss : List Segment) (key : Int64) :
    Option (Except ArchiveError Bytes) :=
  ((visitSegments d ss).1.filter (·.1 == key)).getLast?.map fun visit =>
    a.fetch d visit.2 .data 0x100000000

def Watches (publish : List Relocation → ArchiveTask Unit) : Prop :=
  ∀ moves (s : Hosted Archive), ∃ counts events, publish moves s =
    (.ok (), ⟨{ s.self with counts := counts }, { s.host with events := events }⟩)

theorem watches_pure : Watches fun _ => pure () := fun _ s => ⟨s.self.counts, s.host.events, rfl⟩

/--
A merge of `run` uncovers `key`: the last record of the key is in the run, whose newest segment does
not have the key in its range, and an older one is in front of the run.
-/
structure Uncovers (s : Hosted Archive) (front run back : List Segment) (newest : Footer)
    (key : Int64) : Prop where
  outside : ¬(newest.minKey ≤ key ∧ key ≤ newest.maxKey)
  newer : s.self.lastDataIn s.host.disk back key = none
  dropped : s.self.lastDataIn s.host.disk run key ≠ none
  older : s.self.lastDataIn s.host.disk front key ≠ none

variable {directory : Path} {name : String} {s s' : Hosted Archive} {line vs : List Volume}
  {current : Option Volume} {files front run back : List Segment}
  {publish : List Relocation → ArchiveTask Unit}

theorem Shelved.lastDataIn_eq {a : Archive} {d : Disk} (h : Shelved a d line [] current)
    (hv : ∀ v ∈ vs, v ∈ line) (key : Int64) :
    a.lastDataIn d (vs.map Volume.segment) key =
      (Entry.latest key (Volume.allEntries vs)).map fun e => .ok e.record.data := by
  rw [lastDataIn, visitSegments_run fun v hm => h.mem_line (hv v hm)]
  simp only [Entry.getLast?_visits]
  exact h.fetch_latest hv key

theorem index_of_mergeRun {newest : Footer} {m : Merge} (hgo : mergeRun run newest s = (.ok m, s')) :
    s.self.nextIndex.toNat < Location.maxSegments := by
  refine Nat.lt_of_not_le fun hmax => ?_
  simp [mergeRun, createSegment, hmax] at hgo
  cases hgo

theorem Shelved.lastData_append {first middle last : List Volume}
    (h : Shelved s.self s.host.disk (first ++ (middle ++ last)) [] current) (key : Int64) :
    s.self.lastData s.host.disk key =
      (s.self.lastDataIn s.host.disk (last.map Volume.segment) key).or
        ((s.self.lastDataIn s.host.disk (middle.map Volume.segment) key).or
          (s.self.lastDataIn s.host.disk (first.map Volume.segment) key)) := by
  have hpart {vs : List Volume} (hvs : ∀ v ∈ vs, v ∈ first ++ (middle ++ last)) :=
    h.lastDataIn_eq hvs key
  have hfirst := @hpart first (by simp +contextual)
  have hmiddle := @hpart middle (by simp +contextual)
  have hlast := @hpart last (by simp +contextual)
  rw [h.lastData_eq, hfirst, hmiddle, hlast]
  simp only [Volume.allEntries_append, Entry.latest_append, Option.map_or, Option.or_assoc]

/-- A merge that has been prepared ends once somebody has watched its moves. -/
theorem Prepared.merge_run {m : Merge} {first middle last : List Volume} {newest : Footer}
    {out : Option Volume} (h : Prepared s s' line current m first middle last newest out)
    (hgo : prepareMerge files s = (.ok (some m), s')) (hw : Watches publish) :
    ∃ t, merge publish files s = (.ok (), t) ∧ Follows 0 s'.self t.self ∧
      Shelved t.self t.host.disk (first ++ (out.toList ++ last)) [] current := by
  obtain ⟨counts, events, hpublish⟩ := hw m.moves s'
  let watched : Hosted Archive :=
    ⟨{ s'.self with counts := counts }, { s'.host with events := events }⟩
  have hprepared : Prepared s watched line current m first middle last newest out :=
    { h with
      follows := ⟨h.follows.directory, h.follows.name, h.follows.nextIndex⟩
      shelved := h.shelved.congr rfl rfl rfl rfl rfl }
  obtain ⟨t, hfinish, hf, ht⟩ := hprepared.finishMerge_run
  refine ⟨t, ?_, ⟨hf.directory, hf.name, hf.nextIndex⟩, ht⟩
  rw [merge, Task.bind_ok hgo]
  simp only [Task.bind_run, hpublish]
  exact hfinish

/-- The last data after a merge: as it was in the range, and otherwise what was beside the run. -/
theorem Prepared.lastData_eq {t : Hosted Archive} {m : Merge} {first middle last : List Volume}
    {newest : Footer} {out : Option Volume} (h : Shelved s.self s.host.disk line [] current)
    (hp : Prepared s s' line current m first middle last newest out)
    (ht : Shelved t.self t.host.disk (first ++ (out.toList ++ last)) [] current) (key : Int64) :
    t.self.lastData t.host.disk key =
      if newest.minKey ≤ key ∧ key ≤ newest.maxKey then s.self.lastData s.host.disk key
      else (s.self.lastDataIn s.host.disk (last.map Volume.segment) key).or
        (s.self.lastDataIn s.host.disk (first.map Volume.segment) key) := by
  have hfirst : ∀ v ∈ first, v ∈ line := fun v hv => by simp [hp.line_eq, hv]
  have hlast : ∀ v ∈ last, v ∈ line := fun v hv => by simp [hp.line_eq, hv]
  rw [ht.lastData_eq, h.lastData_eq, h.lastDataIn_eq hfirst, h.lastDataIn_eq hlast, hp.line_eq]
  simp only [Volume.allEntries_append, Entry.latest_append]
  split
  · rename_i hin
    have hsame := hp.relocates.latest_eq hin.1 hin.2
    have hdata (e : Option Entry) : e.map (fun e => (.ok e.record.data : Except ArchiveError Bytes)) =
        (e.map Entry.record).map fun r => .ok r.data := by
      rw [Option.map_map]
      rfl
    rw [hdata, hdata]
    simp only [Option.map_or, hsame]
  · rename_i hout
    rw [hp.relocates.latest_outside hout, Option.or_none, Option.map_or]

theorem Shelved.merge_ok (h : Shelved s.self s.host.disk line [] current) (hw : Watches publish)
    (hc : s.self.completed = front ++ (run ++ back)) (hne : run ≠ [])
    (hp : ((s.self.mergeable files).map Segment.index).Perm (run.map Segment.index))
    (hm : merge publish files s = (.ok (), s')) :
    ∃ first middle last m newest out s1, front = first.map Volume.segment ∧
      run = middle.map Volume.segment ∧ back = last.map Volume.segment ∧
      run.getLast?.bind Segment.footer = some newest ∧
      Prepared s s1 line current m first middle last newest out ∧
      Shelved s'.self s'.host.disk (first ++ (out.toList ++ last)) [] current := by
  obtain ⟨first, middle, last, w, newest, rfl, rfl, rfl, rfl, hlast, hfooter, hprepare⟩ :=
    h.prepareMerge_run hc hne hp
  rw [Task.map_run] at hprepare
  rcases hgo : mergeRun (middle.map Volume.segment) newest s with ⟨e | m, s1⟩
  · rw [hgo] at hprepare
    rw [merge, Task.bind_error hprepare] at hm
    cases hm
  have hno_wrap : s.self.nextIndex.toNat + 1 < 0x100000000 := by
    have hmax := index_of_mergeRun hgo
    rw [Location.maxSegments_eq] at hmax
    omega
  rcases h.mergeRun_cases hlast hfooter hno_wrap with ⟨e, t, hfail, -⟩ | ⟨m', out, s2, hgo', hprepared⟩
  · rw [hgo] at hfail
    cases hfail
  rw [hgo] at hprepare hgo'
  cases hgo'
  obtain ⟨t, hrun, -, ht⟩ := hprepared.merge_run hprepare hw
  rw [hrun] at hm
  cases hm
  exact ⟨first, middle, last, m, newest, out, s1, rfl, rfl, rfl,
    by rw [List.getLast?_map, hlast]; exact hfooter, hprepared, ht⟩

/--
After a merge of any run of completed segments a replay goes through. It comes last to the same data
as before for each key in the range of the newest input, and for any other key as well unless it does
not come to the key at all any more. The one exception is a key that the merge uncovers: its last
data is then that of its last record in front of the run.
-/
theorem Reached.merge_last_data (hr : Reached directory name s) (hw : Watches publish)
    (hc : s.self.completed = front ++ (run ++ back)) (hne : run ≠ [])
    (hp : ((s.self.mergeable files).map Segment.index).Perm (run.map Segment.index))
    (hm : merge publish files s = (.ok (), s')) :
    (s'.self.replay s'.host.disk).2 = .ok () ∧
      ∃ newest, run.getLast?.bind Segment.footer = some newest ∧ ∀ key,
        (newest.minKey ≤ key ∧ key ≤ newest.maxKey →
          s'.self.lastData s'.host.disk key = s.self.lastData s.host.disk key) ∧
        (¬Uncovers s front run back newest key → s'.self.lastData s'.host.disk key = none ∨
          s'.self.lastData s'.host.disk key = s.self.lastData s.host.disk key) ∧
        (Uncovers s front run back newest key →
          s'.self.lastData s'.host.disk key = s.self.lastDataIn s.host.disk front key) := by
  obtain ⟨line, current, h⟩ := hr.shelves.shelved
  obtain ⟨first, middle, last, m, newest, out, s1, rfl, rfl, rfl, hnewest, hprepared, ht⟩ :=
    h.merge_ok hw hc hne hp hm
  obtain rfl := hprepared.line_eq
  refine ⟨by rw [ht.replay_run], newest, hnewest, fun key => ?_⟩
  have hafter := hprepared.lastData_eq h ht key
  refine ⟨fun hin => by rw [hafter, if_pos hin], fun hnot => ?_, fun hun => ?_⟩
  · by_cases hin : newest.minKey ≤ key ∧ key ≤ newest.maxKey
    · exact .inr (by rw [hafter, if_pos hin])
    rw [hafter, if_neg hin, h.lastData_append key]
    cases hback : s.self.lastDataIn s.host.disk (last.map Volume.segment) key with
    | some data => exact .inr rfl
    | none =>
        cases hrun : s.self.lastDataIn s.host.disk (middle.map Volume.segment) key with
        | none => exact .inr rfl
        | some data =>
            -- Only an older record could be left, and then the key would be uncovered.
            refine .inl (Decidable.byContradiction fun hfront => hnot ⟨hin, hback, ?_, ?_⟩)
            · rw [hrun]
              simp
            · simpa using hfront
  · rw [hafter, if_neg hun.outside, hun.newer, Option.none_or]

def narrowed : Option (Hosted Archive) :=
  scenario "x" [.start, .store ⟨7, [1]⟩, .finish 0 10, .start, .store ⟨3, [3]⟩, .store ⟨7, [2]⟩,
    .finish 0 5]

def isPair (test : Segment → Segment → Bool) : List Segment → Bool
  | [x, y] => test x y
  | _ => false

theorem exists_of_isPair {test : Segment → Segment → Bool} {xs : List Segment} (h : isPair test xs) :
    ∃ x y, xs = [x, y] ∧ test x y := by
  unfold isPair at h
  split at h
  · exact ⟨_, _, rfl, h⟩
  · cases h

/-- A merge of the second segment uncovers the key, and keeps the one in the range. -/
theorem merge_last_data_narrowed :
    ∃ s s' front run newest, Reached [] "x" s ∧ s.self.completed = front ++ (run ++ []) ∧
      merge (fun _ => pure ()) run s = (.ok (), s') ∧ Uncovers s front run [] newest 7 ∧
      s'.self.lastData s'.host.disk 3 = s.self.lastData s.host.disk 3 ∧
      s'.self.lastData s'.host.disk 7 = s.self.lastDataIn s.host.disk front 7 := by
  have hcheck : narrowed.any fun s => s.self.completed |> isPair fun x y =>
      ((s.self.mergeable [y]).map Segment.index == [y.index]) &&
        (y.footer.any fun f => f.minKey == 0 && f.maxKey == 5) &&
        (s.self.lastDataIn s.host.disk [x] 7).isSome && (s.self.lastDataIn s.host.disk [y] 7).isSome &&
        (merge (fun _ => pure ()) [y] s).1.toBool := by
    decide +kernel
  obtain ⟨s, hs, hgo⟩ := (Option.any_eq_true ..).mp hcheck
  have hr : Reached [] "x" s := Run.reached (run_of_scenario hs) (by decide)
  obtain ⟨x, y, hc, hgo⟩ := exists_of_isPair hgo
  simp only [Bool.and_eq_true, beq_iff_eq, Option.any_eq_true] at hgo
  obtain ⟨⟨⟨⟨hfiles, f, hf, hmin, hmax⟩, hx⟩, hy⟩, hok⟩ := hgo
  rcases hm : merge (fun _ => pure ()) [y] s with ⟨_ | _, s'⟩
  · rw [hm] at hok
    cases hok
  have hcompleted : s.self.completed = [x] ++ ([y] ++ []) := hc
  obtain ⟨-, newest, hnewest, hlast⟩ := Reached.merge_last_data hr watches_pure hcompleted (by simp)
    (by rw [hfiles]; exact .refl _) hm
  have he : newest = f := by
    have hfooter : y.footer = some newest := by simpa using hnewest
    exact Option.some.inj (hfooter.symm.trans hf)
  subst he
  have hun : Uncovers s [x] [y] [] newest 7 := by
    refine ⟨?_, rfl, ?_, ?_⟩
    · rw [hmin, hmax]
      decide
    · exact Option.isSome_iff_ne_none.mp hy
    · exact Option.isSome_iff_ne_none.mp hx
  refine ⟨s, s', [x], [y], newest, hr, hc, hm, hun, (hlast 3).1 ?_, (hlast 7).2.2 hun⟩
  rw [hmin, hmax]
  decide

def hasLast (s : Hosted Archive) (key : Int64) (data : Bytes) : Bool :=
  match s.self.lastData s.host.disk key with
  | some (.ok found) => found == data
  | _ => false

theorem lastData_of_hasLast {key : Int64} {data : Bytes} (h : hasLast s key data) :
    s.self.lastData s.host.disk key = some (.ok data) := by
  unfold hasLast at h
  split at h
  · rename_i found hfound
    rw [hfound, beq_iff_eq.mp h]
  · cases h

/-- The merge brings back data that a later session has replaced. -/
theorem merge_revives_older_data :
    ∃ s s' h run, Run [] "x" s h ∧ run <:+ s.self.completed ∧
      merge (fun _ => pure ()) run s = (.ok (), s') ∧
      s.self.lastData s.host.disk 7 = some (.ok [2]) ∧
      s'.self.lastData s'.host.disk 7 = some (.ok [1]) := by
  have hcheck : narrowed.any fun s =>
      let merged := merge (fun _ => pure ()) (s.self.completed.drop 1) s
      merged.1.toBool && (hasLast s 7 [2] && hasLast merged.2 7 [1]) := by
    decide +kernel
  obtain ⟨s, hs, hgo⟩ := (Option.any_eq_true ..).mp hcheck
  obtain ⟨hok, hgo⟩ := Bool.and_eq_true_iff.mp hgo
  obtain ⟨hbefore, hafter⟩ := Bool.and_eq_true_iff.mp hgo
  rcases hm : merge (fun _ => pure ()) (s.self.completed.drop 1) s with ⟨_ | _, s'⟩
  · rw [hm] at hok
    cases hok
  · rw [hm] at hafter
    exact ⟨s, s', _, _, run_of_scenario hs, List.drop_suffix .., hm, lastData_of_hasLast hbefore,
      lastData_of_hasLast hafter⟩

end MeteredStorage.Archive
