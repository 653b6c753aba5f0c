import MeteredStorage.Proofs.Archive.Damage
import MeteredStorage.Proofs.PagedMap.Reaching

namespace MeteredStorage

variable {K : Type} [FixedKey K]

/-- No step of the map is under way and its slots lead into the archive, whatever the pages hold. -/
structure Rests (s : MapState K) (line : List Volume) : Prop where
  configured : Configured s
  located : Located s ⟨line, [], none, [], none, []⟩
  collected : ∀ changes, s.self.changes = some changes → Collected s.self.dimensions changes

namespace Rests

variable {s s' : MapState K} {line line' : List Volume} {b : Nat}

theorem alike (h : Rests s line) (ha : Alike s s') : Rests s' line where
  configured := h.configured.remains (h.located.alike ha).kin.remains
  located := (h.located.alike ha).located
  collected := by
    rw [ha.changes, ha.dimensions]
    exact h.collected

theorem collecting (h : Rests s line) (hr : Remains s s') (ha : s'.self.archive = s.self.archive)
    (ht : s'.self.table = s.self.table) (hd : s'.host.disk = s.host.disk)
    (hc : ∀ changes, s'.self.changes = some changes → Collected s.self.dimensions changes) :
    Rests s' line where
  configured := h.configured.remains hr
  located := h.located.congr hr.dimensions ha ht hd
  collected := hr.dimensions ▸ hc

theorem reopened (h : Rests s line) {a : Archive} {host : Host} (hr : Reopens s a host line')
    (hranges : Spanning s.self.dimensions.buckets line') :
    Rests ⟨PagedMap.rebuilt K s.self.name s.self.dimensions a line', host⟩ line' where
  configured := .rebuilt (hr.name.trans h.configured.name) h.configured.dimensions
  located := .rebuilt h.configured.dimensions hr.shelved hranges
  collected := nofun

theorem merge (h : Rests s line) (hi : s.self.archive.nextIndex.toNat + 1 < 0x100000000)
    {limit : UInt64} {r : Except MapError Nat} (hrun : PagedMap.merge limit s = (r, s')) :
    Remains s s' ∧ (∃ line', Rests s' line') ∧
      (Roomy s → r ≠ .error (.archive .indicesExhausted) → Roomy s') := by
  obtain ⟨r1, s1, k', used, hgo, hbrings, -, hused, hcurrent, hold, hmoves, hmax⟩ :=
    h.located.merge_run rfl rfl rfl hi limit
  rw [hgo] at hrun
  cases hrun
  have hkin := hbrings.kin
  refine ⟨hkin.remains, ⟨k'.line, h.configured.remains hkin.remains,
    hbrings.located.idle hcurrent hold hmoves, ?_⟩,
    fun hr he => hkin.roomy hr hused (hmax.imp_right fun hm => hm.resolve_right he)⟩
  rw [hkin.changes, hkin.dimensions]
  exact h.collected

theorem finish (h : Rests s line) (hi : s.self.archive.nextIndex.toNat + 1 < 0x100000000)
    {r : Except MapError Unit} (hrun : PagedMap.endWriting s = (r, s')) :
    Remains s s' ∧ (∃ line', Rests s' line') ∧
      (Roomy s → r ≠ .error (.archive .indicesExhausted) → Roomy s') := by
  obtain ⟨s1, ht, hstart⟩ := Flush.start_cases s
  have h1 : Rests s1 line := h.collecting ht.remains ht.archive ht.table (by rw [ht.host]) ht.nothing
  rcases hstart with ⟨r1, hstart, -⟩ | ⟨changes, hchanges, hstart⟩
  · simp only [PagedMap.endWriting, hstart] at hrun
    cases hrun
    refine ⟨ht.remains, ⟨line, h1⟩, fun hr _ => ?_⟩
    rw [Roomy, ht.archive]
    exact hr
  · have hfilling : Filling s1.self.dimensions.buckets ⟨line, [], none, [], none, []⟩
        (⟨changes, changes.length, Bytes.zeros pageSize, .opening⟩ : Flush K) :=
      ⟨ht.remains.dimensions ▸ (h.collected _ hchanges).bounded, .opening rfl⟩
    obtain ⟨r1, s2, k', written, hgo, hkeeps, hold, hmoves, hcurrent, hmax⟩ :=
      hfilling.run h1.located (by
        rw [ht.archive]
        exact hi)
    have hkin := hkeeps.kin
    simp only [PagedMap.endWriting, hstart, hgo] at hrun
    cases hrun
    refine ⟨ht.remains.trans hkin.remains, ⟨k'.line, h1.configured.remains hkin.remains,
      hkeeps.located.idle hcurrent hold hmoves, ?_⟩, fun hr he => ?_⟩
    · rw [hkin.changes]
      exact ht.nothing
    · rw [Roomy, ← ht.archive] at hr
      exact hkin.roomy hr (Nat.le_refl _) (.inr ((hmax rfl).resolve_right he))

theorem reopen_run (h : Rests s line) :
    ∃ a host line', Reopens s a host line' ∧
      Rests ⟨PagedMap.rebuilt K s.self.name s.self.dimensions a line', host⟩ line' := by
  by_cases hn : SegmentName.Plain s.self.name
  · obtain ⟨a, host, line', hr, hline⟩ := h.located.reopen_run h.configured hn
    exact ⟨a, host, line', hr, h.reopened hr (ranges_of_shut hline h.located.points.spanning)⟩
  · obtain ⟨a, host, hr⟩ := h.located.reopen_foreign h.configured hn
    exact ⟨a, host, [], hr, h.reopened hr (.nil _)⟩

theorem shuffled (h : Rests s line) {changes changes' : ChangeSet K}
    (hs : s.self.changes = some changes) (hr : ChangeSet.Rearranged changes changes') :
    Rests (s.update fun m => { m with changes := some changes' }) line := by
  refine h.collecting ⟨rfl, rfl, rfl, rfl⟩ rfl rfl rfl fun _ hc => ?_
  cases hc
  exact (h.collected _ hs).rearranged hr

theorem damaged (h : Rests s line) {t : Segment} (ht : t ∈ s.self.archive.completed) {offset : Nat}
    {bytes : Bytes} (hin : t.InData s.host.disk offset bytes.length) :
    ∃ line', Rests { s with host := { s.host with
      disk := s.host.disk.changed (.write t.slot offset bytes) } } line' := by
  obtain ⟨line', hs, hsegments, hvisits⟩ := h.located.shelved.damaged ht hin
  have hranked := hs.ranked
  rw [Option.toList_none, List.append_nil] at hranked
  have hentries : (Volume.allEntries line').map (fun e => (e.record.key, e.location)) =
      (Volume.allEntries line).map fun e => (e.record.key, e.location) := by
    have hflat (vs : List Volume) : (Volume.allEntries vs).map (fun e => (e.record.key, e.location)) =
        (vs.map Volume.visits).flatten := by
      rw [Volume.allEntries, List.map_flatMap, List.flatMap_def]
      rfl
    rw [hflat, hflat, hvisits]
  refine ⟨line', ⟨h.configured.name, h.configured.dimensions⟩, ⟨h.located.shaped, hs,
    .of_get_eq ?_ fun b hb => ?_, .nothing hranked⟩, h.collected⟩
  · intro v hv f hf
    have hm : v.segment ∈ line.map Volume.segment := hsegments ▸ List.mem_map_of_mem hv
    obtain ⟨u, hu, he⟩ := List.mem_map.mp hm
    exact h.located.points.spanning u hu f (by rw [he]; exact hf)
  · rw [h.located.points.get_eq rfl hb, Entry.map_location_latest, Entry.map_location_latest, hentries,
      Stock.live, List.append_nil]

theorem get_eq (h : Rests s line) (hb : b < s.self.dimensions.buckets) :
    s.self.table.get b =
      ((Entry.latest (bucketKey b) (Volume.allEntries line)).map Entry.location).getD 0 := by
  rw [h.located.points.get_eq rfl hb, Stock.live, List.append_nil]

theorem get_eq_zero (h : Rests s line) (hb : b < s.self.dimensions.buckets) :
    s.self.table.get b = 0 ↔ ∀ e ∈ Volume.allEntries line, e.record.key ≠ bucketKey b := by
  rw [← Entry.latest_eq_none]
  rcases h.located.points.slot_cases h.located.holds hb with ⟨hzero, hnone⟩ | ⟨e, he, hne, -⟩
  · rw [Stock.live, List.append_nil] at hnone
    exact iff_of_true hzero hnone
  · rw [Stock.live, List.append_nil] at he
    exact iff_of_false hne (by simp [he])

variable [DecidableEq K]

theorem acted (h : Rests s line) (hi : s.self.archive.nextIndex.toNat + 1 < 0x100000000)
    {act : PagedMap.Action K} {r : Except MapError Unit} (hrun : act.run s = (r, s')) :
    Remains s s' ∧ (∃ line', Rests s' line') ∧
      (Roomy s → r ≠ .error (.archive .indicesExhausted) → Roomy s') := by
  cases act with
  | start =>
      have hrun : PagedMap.startWriting s = (r, s') := hrun
      rcases PagedMap.startWriting_cases s with ⟨e, hgo⟩ | hgo
      · rw [hgo] at hrun
        cases hrun
        exact ⟨.refl s, ⟨line, h⟩, fun hr _ => hr⟩
      · rw [hgo] at hrun
        cases hrun
        refine ⟨⟨rfl, rfl, rfl, rfl⟩, ⟨line, h.collecting ⟨rfl, rfl, rfl, rfl⟩ rfl rfl rfl fun _ hc => ?_⟩,
          fun hr _ => hr⟩
        cases hc
        exact .nil _
  | put key value =>
      have hrun : PagedMap.put key value s = (r, s') := hrun
      rcases PagedMap.put_cases s key value with ⟨-, hgo⟩ | ⟨changes, hchanges, hgo⟩
      · rw [hgo] at hrun
        cases hrun
        exact ⟨.refl s, ⟨line, h⟩, fun hr _ => hr⟩
      · rw [hgo] at hrun
        cases hrun
        refine ⟨⟨rfl, rfl, rfl, rfl⟩, ⟨line, h.collecting ⟨rfl, rfl, rfl, rfl⟩ rfl rfl rfl fun _ hc => ?_⟩,
          fun hr _ => hr⟩
        cases hc
        exact (h.collected changes hchanges).insert (h.located.place_lt key) rfl value
  | finish => exact h.finish hi hrun
  | merge limit =>
      rcases Task.bind_eq hrun with ⟨n, t, ht, hrest⟩ | ⟨e, ht, hr⟩
      · cases hrest
        obtain ⟨hremains, hrests, hroomy⟩ := h.merge hi ht
        exact ⟨hremains, hrests, fun hr _ => hroomy hr nofun⟩
      · cases hr
        obtain ⟨hremains, hrests, hroomy⟩ := h.merge hi ht
        exact ⟨hremains, hrests, fun hr he => hroomy hr fun hex => he (congrArg _ (Except.error.inj hex))⟩
  | find key notFound =>
      have hsame {t : MapState K} (ha : Alike s t) : Remains s t ∧ (∃ line', Rests t line') ∧
          (Roomy s → r ≠ .error (.archive .indicesExhausted) → Roomy t) := by
        refine ⟨(h.located.alike ha).kin.remains, ⟨line, h.alike ha⟩, fun hr _ => ?_⟩
        rw [Roomy, ha.nextIndex]
        exact hr
      have ha := PagedMap.alike_find key notFound s
      rcases Task.bind_eq hrun with ⟨n, t, ht, hrest⟩ | ⟨e, ht, -⟩
      · cases hrest
        rw [ht] at ha
        exact hsame ha
      · rw [ht] at ha
        exact hsame ha
  | reopen =>
      have hrun : PagedMap.reopen s = (r, s') := hrun
      obtain ⟨a, host, line', hr, hrests⟩ := h.reopen_run
      rw [hr.run] at hrun
      cases hrun
      exact ⟨hr.remains, ⟨line', hrests⟩, fun _ _ => hr.room⟩
  | wait clock =>
      cases hrun
      exact ⟨⟨rfl, rfl, rfl, rfl⟩, ⟨line, h.alike (.waited s clock)⟩, fun hr _ => hr⟩

end Rests

variable [DecidableEq K]

namespace PagedMap

/--
The states of a map that was opened in an empty directory, whatever was done with it, as long as it had
an index for each segment. Sessions may fail, and bytes of the pages may be overwritten in between.
-/
inductive Endures (K : Type) [DecidableEq K] [FixedKey K] (directory : Path) (name : String)
    (mapSize : UInt64) : MapState K → Prop
  | opened {host host' : Host} {m : PagedMap K} (hd : host.disk.Vacant directory)
      (h : init K directory name mapSize host = (.ok m, host')) :
      Endures K directory name mapSize ⟨m, host'⟩
  | acted {s s' : MapState K} {act : Action K} {r : Except MapError Unit}
      (hr : Endures K directory name mapSize s) (h : act.run s = (r, s'))
      (he : r ≠ .error (.archive .indicesExhausted)) : Endures K directory name mapSize s'
  | shuffled {s : MapState K} {changes changes' : ChangeSet K}
      (hr : Endures K directory name mapSize s) (hs : s.self.changes = some changes)
      (h : ChangeSet.Rearranged changes changes') :
      Endures K directory name mapSize (s.update fun m => { m with changes := some changes' })
  | damaged {s : MapState K} {t : Segment} {offset : Nat} {bytes : Bytes}
      (hr : Endures K directory name mapSize s) (ht : t ∈ s.self.archive.completed)
      (h : t.InData s.host.disk offset bytes.length) :
      Endures K directory name mapSize { s with host := { s.host with
        disk := s.host.disk.changed (.write t.slot offset bytes) } }

variable {directory : Path} {name : String} {mapSize : UInt64} {s s' : MapState K}

theorem Endures.roomy_rests (h : Endures K directory name mapSize s) :
    Roomy s ∧ s.self.name = name ∧ ∃ line, Rests s line := by
  induction h with
  | opened hd hinit =>
      obtain ⟨hname, hidle, -, hroomy⟩ := idle_of_vacant hd hinit
      exact ⟨hroomy, hname, [], hidle.configured, hidle.indexed.toLocated, hidle.collected⟩
  | acted _ hrun he ih =>
      obtain ⟨hroomy, hname, line, hrests⟩ := ih
      obtain ⟨hremains, hrests', hroomy'⟩ := hrests.acted hroomy.no_wrap hrun
      exact ⟨hroomy' hroomy he, hremains.name.trans hname, hrests'⟩
  | shuffled _ hs hr ih =>
      obtain ⟨hroomy, hname, line, hrests⟩ := ih
      exact ⟨hroomy, hname, line, hrests.shuffled hs hr⟩
  | damaged _ ht hin ih =>
      obtain ⟨hroomy, hname, line, hrests⟩ := ih
      exact ⟨hroomy, hname, hrests.damaged ht hin⟩

theorem Endures.rests (h : Endures K directory name mapSize s) :
    s.self.name = name ∧ ∃ line, Rests s line :=
  h.roomy_rests.2

theorem endures_of_scenario {acts : List (Action K)} (hs : scenario K name mapSize acts = some s) :
    Endures K [] name mapSize s :=
  of_scenario (motive := fun _ s => Endures K [] name mapSize s) hs .opened fun hr _ hgo =>
    hr.acted hgo nofun

/--
The slot of each bucket has the location that a replay visits last under its key, and zero exactly if
there is none. So closing and opening the map changes no slot, unless its name has a separator.
-/
theorem Endures.slots_mirror_replay (h : Endures K directory name mapSize s) :
    (∃ visits, s.self.archive.replay s.host.disk = (visits, .ok ()) ∧
      ∀ b < s.self.dimensions.buckets,
        s.self.table.get b =
          ((visits.filter (·.1 == bucketKey b)).getLast?.map Prod.snd).getD 0 ∧
        (s.self.table.get b = 0 ↔ ∀ visit ∈ visits, visit.1 ≠ bucketKey b)) ∧
    (SegmentName.Plain name → ∃ s', PagedMap.reopen s = (.ok (), s') ∧
      s'.self.dimensions = s.self.dimensions ∧
      ∀ b < s.self.dimensions.buckets, s'.self.table.get b = s.self.table.get b) := by
  obtain ⟨hname, line, hrests⟩ := h.rests
  refine ⟨⟨_, hrests.located.shelved.replay_run, fun b hb => ⟨?_, ?_⟩⟩, fun hn => ?_⟩
  · rw [hrests.get_eq hb, Entry.map_location_latest]
  · rw [hrests.get_eq_zero hb]
    simp
  · obtain ⟨a, host, line', hr, hline⟩ :=
      hrests.located.reopen_run hrests.configured (hname ▸ hn)
    refine ⟨_, hr.run, rfl, fun b hb => ?_⟩
    rw [hrests.get_eq hb, ← Archive.allEntries_of_shut hline]
    exact get_rebuild_allEntries hrests.located.shaped.buckets_le hb line'

def mismatched : Except MapError Unit → Bool
  | .error (.pageMismatch ..) => true
  | _ => false

theorem of_mismatched {r : Except MapError Unit} (h : mismatched r) :
    ∃ bucket index, r = .error (.pageMismatch bucket index) := by
  unfold mismatched at h
  split at h
  · exact ⟨_, _, rfl⟩
  · cases h

/-- The first byte of a page is overwritten, and the next session that reads the page fails. -/
theorem slots_mirror_replay_after_mismatch :
    ∃ (s s' : MapState UInt64) (bucket : Nat) (index : Int32), Endures UInt64 [] "x" 100 s ∧
      endWriting s = (.error (.pageMismatch bucket index), s') ∧
      (∃ visits, s'.self.archive.replay s'.host.disk = (visits, .ok ()) ∧
        ∀ b < s'.self.dimensions.buckets,
          s'.self.table.get b =
            ((visits.filter (·.1 == bucketKey b)).getLast?.map Prod.snd).getD 0 ∧
          (s'.self.table.get b = 0 ↔ ∀ visit ∈ visits, visit.1 ≠ bucketKey b)) ∧
      ∃ s'', PagedMap.reopen s' = (.ok (), s'') ∧ s''.self.dimensions = s'.self.dimensions ∧
        ∀ b < s'.self.dimensions.buckets, s''.self.table.get b = s'.self.table.get b := by
  have hfails : (scenario UInt64 "x" 100 [.start, .put 7 1, .finish, .start, .put 7 2]).any fun s =>
      s.self.archive.completed.any fun t => decide (t.InData s.host.disk 12 1) &&
        mismatched (endWriting { s with host := { s.host with
          disk := s.host.disk.changed (.write t.slot 12 [0xFF]) } }).1 := by
    decide +kernel
  obtain ⟨s, hs, hany⟩ := (Option.any_eq_true ..).mp hfails
  obtain ⟨t, ht, hboth⟩ := List.any_eq_true.mp hany
  obtain ⟨hin, hmismatched⟩ := Bool.and_eq_true_iff.mp hboth
  have hin : t.InData s.host.disk 12 ([0xFF] : Bytes).length := of_decide_eq_true hin
  have hdamaged := (endures_of_scenario hs).damaged ht hin
  generalize { s with host := { s.host with
    disk := s.host.disk.changed (.write t.slot 12 [0xFF]) } } = s1 at hmismatched hdamaged
  obtain ⟨bucket, index, hr⟩ := of_mismatched hmismatched
  have hfinish : Action.finish.run s1 = (.error (.pageMismatch bucket index), (endWriting s1).2) :=
    Prod.ext hr rfl
  have hafter := hdamaged.acted hfinish nofun
  obtain ⟨hslots, hreopen⟩ := Endures.slots_mirror_replay hafter
  exact ⟨s1, _, bucket, index, hdamaged, hfinish, hslots, hreopen (by decide)⟩

/-- Under a name with a separator a slot is empty after closing and opening. -/
theorem reopen_clears_slot_under_separated_name :
    ∃ s s' : MapState UInt64, Endures UInt64 [] "./x" 100 s ∧ PagedMap.reopen s = (.ok (), s') ∧
      ∃ b < s.self.dimensions.buckets, s'.self.table.get b ≠ s.self.table.get b := by
  have hcleared : (scenario UInt64 "./x" 100 [.start, .put 7 1, .finish]).any fun s =>
      decide (∃ b < s.self.dimensions.buckets,
        (PagedMap.reopen s).2.self.table.get b ≠ s.self.table.get b) := by
    decide +kernel
  obtain ⟨s, hs, hne⟩ := (Option.any_eq_true ..).mp hcleared
  obtain ⟨b, hb, hne⟩ := of_decide_eq_true hne
  have hrun := endures_of_scenario hs
  obtain ⟨-, line, hrests⟩ := hrun.rests
  obtain ⟨a, host, line', hr, -⟩ := hrests.reopen_run
  rw [hr.run] at hne
  exact ⟨s, _, hrun, hr.run, b, hb, hne⟩

end PagedMap

end MeteredStorage
