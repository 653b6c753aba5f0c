import MeteredStorage.Proofs.PagedMap.Getting
import MeteredStorage.Proofs.PagedMap.Moving

namespace MeteredStorage

variable {K : Type} {s s' : MapState K}

structure Remains (s t : MapState K) : Prop where
  name : t.self.name = s.self.name
  dimensions : t.self.dimensions = s.self.dimensions
  archiveName : t.self.archive.name = s.self.archive.name
  directory : t.self.archive.directory = s.self.archive.directory

theorem Remains.refl (s : MapState K) : Remains s s := ⟨rfl, rfl, rfl, rfl⟩

theorem Remains.trans {t : MapState K} (h : Remains s t) (h' : Remains t s') : Remains s s' :=
  ⟨h'.name.trans h.name, h'.dimensions.trans h.dimensions, h'.archiveName.trans h.archiveName,
    h'.directory.trans h.directory⟩

structure Takes (s t : MapState K) : Prop where
  remains : Remains s t
  archive : t.self.archive = s.self.archive
  table : t.self.table = s.self.table
  counts : t.self.counts = s.self.counts
  host : t.host = s.host
  changes : t.self.changes = none

theorem Takes.nothing (h : Takes s s') {P : ChangeSet K → Prop} :
    ∀ changes, s'.self.changes = some changes → P changes := by
  rw [h.changes]
  nofun

theorem Flush.start_cases (s : MapState K) :
    ∃ t, Takes s t ∧
      ((∃ r, start s = (.done r, t) ∧ s.self.changes.getD [] = []) ∨
        ∃ changes, s.self.changes = some changes ∧
          start s = (.running ⟨changes, changes.length, Bytes.zeros pageSize, .opening⟩, t)) := by
  cases hchanges : s.self.changes with
  | none =>
      refine ⟨s, ⟨.refl s, rfl, rfl, rfl, rfl, hchanges⟩, .inl ⟨.error .noSession, ?_, rfl⟩⟩
      simp only [start, hchanges]
  | some changes =>
      cases changes with
      | nil =>
          refine ⟨s.update fun m => { m with changes := none, busy := false },
            ⟨⟨rfl, rfl, rfl, rfl⟩, rfl, rfl, rfl, rfl, rfl⟩, .inl ⟨.ok (), ?_, rfl⟩⟩
          simp only [start, hchanges]
      | cons change changes =>
          refine ⟨s.update fun m => { m with changes := none },
            ⟨⟨rfl, rfl, rfl, rfl⟩, rfl, rfl, rfl, rfl, rfl⟩, .inr ⟨_, rfl, ?_⟩⟩
          simp only [start, hchanges]

theorem Kin.remains {written used : Nat} (h : Kin written used s s') : Remains s s' :=
  ⟨h.name, h.dimensions, h.follows.name, h.follows.directory⟩

def Roomy (s : MapState K) : Prop := s.self.archive.nextIndex.toNat ≤ Location.maxSegments

theorem Roomy.no_wrap (h : Roomy s) : s.self.archive.nextIndex.toNat + 1 < 0x100000000 := by
  rw [Roomy, Location.maxSegments_eq] at h
  omega

/-- An index that is taken and not refused leaves room. -/
theorem Kin.roomy {written used : Nat} (h : Kin written used s s') (hr : Roomy s) (hu : used ≤ 1)
    (hmax : used = 0 ∨ s.self.archive.nextIndex.toNat < Location.maxSegments) : Roomy s' := by
  rw [Roomy] at hr ⊢
  rw [h.follows.nextIndex]
  omega

namespace Lookup

variable [FixedKey K]

theorem run_of_done {l : Lookup K} {r : Except MapError Int64} (h : l.step s = (.done r, s')) :
    l.run s = (r, s') := by
  rw [run]
  split <;> simp_all

end Lookup

namespace PagedMap

theorem startWriting_cases (s : MapState K) :
    (∃ e, startWriting s = (.error e, s)) ∨
      startWriting s = (.ok (), s.update fun m => { m with busy := true, changes := some [] }) := by
  by_cases hbusy : s.self.busy
  · exact .inl ⟨.sessionActive, by simp [startWriting, hbusy]⟩
  · exact .inr (by simp [startWriting, hbusy])

theorem put_cases [DecidableEq K] [FixedKey K] (s : MapState K) (key : K) (value : Int64) :
    (s.self.changes = none ∧ put key value s = (.error .noSession, s)) ∨
      ∃ changes, s.self.changes = some changes ∧ put key value s =
        (.ok (), (s.update fun m => { m with
          changes := some (changes.insert (s.self.place key).2 key value) }).count fun c =>
            { c with puts := c.puts + 1 }) := by
  cases hchanges : s.self.changes with
  | none => exact .inl ⟨rfl, by simp [put, hchanges]⟩
  | some changes => exact .inr ⟨changes, rfl, by simp [put, hchanges]⟩

end PagedMap

variable [FixedKey K]

structure Configured (s : MapState K) : Prop where
  name : s.self.archive.name = s.self.name
  dimensions : PagedMap.dimensionsFor K s.self.dimensions.mapSize = .ok s.self.dimensions

theorem Configured.remains (h : Configured s) (hr : Remains s s') : Configured s' where
  name := by rw [hr.archiveName, hr.name, h.name]
  dimensions := by rw [hr.dimensions, h.dimensions]

theorem place_of_remains (h : Remains s s') (key : K) : s'.self.place key = s.self.place key := by
  rw [PagedMap.place, PagedMap.place, h.dimensions]

structure Idle (s : MapState K) (line : List Volume) (versions : Versions K) : Prop where
  configured : Configured s
  indexed : Indexed s ⟨line, [], none, [], none, []⟩ versions
  collected : ∀ changes, s.self.changes = some changes → Collected s.self.dimensions changes

variable {k : Stock} {line : List Volume} {versions : Versions K}

theorem Located.idle (h : Located s k) (hc : k.current = none) (ho : k.old = [])
    (hm : k.moves = []) : Located s ⟨k.line, [], none, [], none, []⟩ := by
  obtain ⟨hs, hf⟩ := h.points.idle hc
  obtain ⟨line, old, current, shown, fresh, moves⟩ := k
  cases hc
  cases ho
  cases hm
  cases hs
  cases hf
  exact h

theorem Indexed.idle (h : Indexed s k versions) (hc : k.current = none) (ho : k.old = [])
    (hm : k.moves = []) : Indexed s ⟨k.line, [], none, [], none, []⟩ versions := by
  obtain ⟨hs, hf⟩ := h.points.idle hc
  obtain ⟨line, old, current, shown, fresh, moves⟩ := k
  cases hc
  cases ho
  cases hm
  cases hs
  cases hf
  exact h

theorem Indexed.shows_line (h : Indexed s k versions) (hc : k.current = none) :
    Shows s.self.dimensions (Volume.allEntries k.line) versions := by
  have hshows := h.shows
  rwa [Stock.live, (h.points.idle hc).1, List.append_nil] at hshows

theorem Idle.alike (h : Idle s line versions) (ha : Alike s s') : Idle s' line versions where
  configured := h.configured.remains (h.indexed.alike ha).kin.remains
  indexed := (h.indexed.alike ha).indexed
  collected := by
    rw [ha.changes, ha.dimensions]
    exact h.collected

theorem Idle.collecting (h : Idle s line versions) (hr : Remains s s')
    (ha : s'.self.archive = s.self.archive) (ht : s'.self.table = s.self.table)
    (hd : s'.host.disk = s.host.disk) (hc : ∀ changes, s'.self.changes = some changes →
      Collected s.self.dimensions changes) : Idle s' line versions where
  configured := h.configured.remains hr
  indexed := h.indexed.congr hr.dimensions ha ht hd
  collected := by
    rw [hr.dimensions]
    exact hc

theorem Idle.startWriting_cases (h : Idle s line versions) :
    (∃ e, PagedMap.startWriting s = (.error e, s)) ∨
    ∃ s', PagedMap.startWriting s = (.ok (), s') ∧ s'.self.changes = some [] ∧
      s'.self.archive = s.self.archive ∧ Remains s s' ∧ Idle s' line versions := by
  rcases PagedMap.startWriting_cases s with hgo | hgo
  · exact .inl hgo
  · have hr : Remains s (s.update fun m => { m with busy := true, changes := some [] }) :=
      ⟨rfl, rfl, rfl, rfl⟩
    refine .inr ⟨_, hgo, rfl, rfl, hr, h.collecting hr rfl rfl rfl fun changes hc => ?_⟩
    cases hc
    exact .nil _

/-- A merge of the oldest segments changes no version. -/
theorem Idle.merge_run (h : Idle s line versions)
    (hnext : s.self.archive.nextIndex.toNat + 1 < 0x100000000) (limit : UInt64) :
    ∃ r s' line', PagedMap.merge limit s = (r, s') ∧ Idle s' line' versions ∧ Remains s s' ∧
      s'.self.changes = s.self.changes ∧
      (Roomy s → r ≠ .error (.archive .indicesExhausted) → Roomy s') := by
  obtain ⟨r, s', k', used, hrun, hbrings, hsame, hused, hcurrent, hold, hmoves, hmax⟩ :=
    h.indexed.merge_run rfl rfl rfl hnext limit
  have hcarries := h.indexed.carries hbrings hsame.resembles
  have hkin := hbrings.kin
  refine ⟨r, s', k'.line, hrun, ⟨h.configured.remains hkin.remains,
    hcarries.indexed.idle hcurrent hold hmoves, ?_⟩, hkin.remains, hkin.changes, fun hr hne => ?_⟩
  · rw [hkin.changes, hkin.dimensions]
    exact h.collected
  · exact hkin.roomy hr hused (hmax.imp_right fun hm => hm.resolve_right hne)

variable [DecidableEq K]

theorem Idle.put_cases (h : Idle s line versions) (key : K) (value : Int64) :
    (s.self.changes = none ∧ PagedMap.put key value s = (.error .noSession, s)) ∨
    ∃ changes s', s.self.changes = some changes ∧ PagedMap.put key value s = (.ok (), s') ∧
      s'.self.changes = some (changes.insert (s.self.place key).2 key value) ∧
      s'.self.archive = s.self.archive ∧ Remains s s' ∧ Idle s' line versions := by
  rcases PagedMap.put_cases s key value with hgo | ⟨changes, hchanges, hgo⟩
  · exact .inl hgo
  · have hr : Remains s ((s.update fun m => { m with
        changes := some (changes.insert (s.self.place key).2 key value) }).count fun c =>
          { c with puts := c.puts + 1 }) := ⟨rfl, rfl, rfl, rfl⟩
    refine .inr ⟨changes, _, hchanges, hgo, rfl, rfl, hr, h.collecting hr rfl rfl rfl fun _ hc => ?_⟩
    cases hc
    exact (h.collected changes hchanges).insert (h.indexed.place_lt key) rfl value

variable [LawfulKey K]

/-- A lookup finds the value of the key in the version of its bucket. -/
theorem Indexed.find_run (h : Indexed s k versions) (key : K) (notFound : Int64) :
    ∃ s', PagedMap.find key notFound s = (.ok (((versions (s.self.place key).2).bind
      fun bs => bs.lookup key).getD notFound), s') ∧ Alike s s' := by
  let s1 := s.count fun c => { c with gets := c.gets + 1 }
  let bucket := (s.self.place key).2
  let l : Lookup K := ⟨key, notFound, (s.self.place key).1, bucket, s.self.table.get bucket⟩
  have ha : Alike s s1 := .gotten s
  have h1 : Indexed s1 k versions := (h.alike ha).indexed
  have hb : bucket < s1.self.dimensions.buckets := h.place_lt key
  have hstart : PagedMap.find key notFound s = l.run s1 := rfl
  rcases h1.slot_cases hb with ⟨hzero, hv⟩ | ⟨hne, bs, hv, hl, hm, -⟩
  · have hlocation : l.location = 0 := hzero
    refine ⟨s1, ?_, ha⟩
    rw [hstart, hv]
    exact Lookup.run_of_done (by rw [Lookup.step, if_pos hlocation]; rfl)
  · have hdata : (pageRecord s1.self.dimensions.form bucket bs).data.length = pageSize :=
      Page.length_image h1.shaped.keySize hl
    rcases h1.readInto_cases (.inl hm) (hdata.trans (Bytes.length_zeros _).symm) with
      ⟨s2, hrun, ha2⟩ | ⟨index, -, hgone⟩
    · rw [hdata] at hrun
      have hread := Lookup.read_of_readInto (l := l) h1 rfl hne hl hrun ha2
      have hstep := Lookup.resume_read l s1
      rw [hread] at hstep
      refine ⟨s2, ?_, ha.trans ha2⟩
      rw [hstart, hv]
      exact Lookup.run_of_done hstep.symm
    · exact absurd hm (hgone.not_mem h1.holds)

theorem Writing.run {base : Versions K} {changes past : ChangeSet K} {counted : Nat} {f : Flush K}
    (h : Indexed s k versions) (hw : Writing base changes counted s k versions past f)
    (hnext : s.self.archive.nextIndex.toNat + f.wants < 0x100000000) :
    ∃ r s' k' versions' past' written, f.run s = (r, s') ∧
      Spares written f.wants s k s' k' versions' ∧ k'.old = k.old ∧ k'.moves = k.moves ∧
      Written base changes counted s' k' versions' past' r ∧
      (f.wants = 1 → s.self.archive.nextIndex.toNat < Location.maxSegments ∨
        r = .error (.archive .indicesExhausted)) := by
  induction f, s using Flush.run.induct generalizing k versions past with
  | case1 f s r s' hstep =>
      obtain ⟨p, s1, hgo, ⟨k', versions', past', written, hspares, hold, hmoves, -, -, hwrites⟩, hmax⟩ :=
        hw.step h hnext
      rw [hstep] at hgo
      cases hgo
      cases hwrites with
      | done hdone =>
          refine ⟨r, s', k', versions', past', written, Flush.run_of_done hstep, hspares, hold, hmoves,
            hdone, fun hone => (hmax hone).imp_right fun he => ?_⟩
          cases he
          rfl
  | case2 f s f' s' hstep ih =>
      obtain ⟨p, s1, hgo, ⟨k', versions', past', written, hspares, hold, hmoves, -, -, hwrites⟩, hmax⟩ :=
        hw.step h hnext
      rw [hstep] at hgo
      cases hgo
      have hzero : f'.wants = 0 := Flush.wants_step hstep
      cases hwrites with
      | running hw' =>
          obtain ⟨r, s2, k2, versions2, past2, written2, hrun, hspares2, hold2, hmoves2, hdone, -⟩ :=
            ih hspares.indexed hw' (by
              rw [hspares.kin.follows.nextIndex, hzero]
              exact hnext)
          rw [hzero] at hspares2
          refine ⟨r, s2, k2, versions2, past2, _, (Flush.run_of_running hstep).trans hrun,
            hspares.trans hspares2, hold2.trans hold, hmoves2.trans hmoves, hdone, fun hone => ?_⟩
          exact .inl ((hmax hone).resolve_right fun he => by cases he)

/-- A session that ends has changed the versions of a first part of its buckets, or of all. -/
theorem Idle.endWriting_run (h : Idle s line versions)
    (hnext : s.self.archive.nextIndex.toNat + 1 < 0x100000000) :
    ∃ r s' line' past, PagedMap.endWriting s = (r, s') ∧ Idle s' line' (versions.after past) ∧
      Remains s s' ∧ s'.self.changes = none ∧
      (r = .ok () → past = s.self.changes.getD []) ∧
      (Roomy s → r ≠ .error (.archive .indicesExhausted) → Roomy s') := by
  obtain ⟨s1, ht, hstart⟩ := Flush.start_cases s
  have h1 : Idle s1 line versions :=
    h.collecting ht.remains ht.archive ht.table (by rw [ht.host]) ht.nothing
  rcases hstart with ⟨r, hstart, hnone⟩ | ⟨changes, hchanges, hstart⟩
  · refine ⟨r, s1, line, [], ?_, h1, ht.remains, ht.changes, fun _ => hnone.symm, fun hroom _ => ?_⟩
    · simp only [PagedMap.endWriting, hstart]
    · rw [Roomy, ht.archive]
      exact hroom
  · have hw : Writing versions changes s1.self.counts.written s1 ⟨line, [], none, [], none, []⟩
        versions [] ⟨changes, changes.length, Bytes.zeros pageSize, .opening⟩ :=
      ⟨rfl, rfl, Bytes.length_zeros _, ht.remains.dimensions ▸ h.collected _ hchanges,
        .opening rfl rfl⟩
    have hnext' : s1.self.archive.nextIndex.toNat + 1 < 0x100000000 := by
      rw [ht.archive]
      exact hnext
    obtain ⟨r, s', k', versions', past, written, hrun, hspares, hold, hmoves, hdone, hmax⟩ :=
      hw.run h1.indexed hnext'
    refine ⟨r, s', k'.line, past, ?_, ⟨h1.configured.remains hspares.kin.remains, ?_, ?_⟩,
      ht.remains.trans hspares.kin.remains, hspares.kin.changes.trans ht.changes, fun hr => ?_,
      fun hroom hne => ?_⟩
    · simp only [PagedMap.endWriting, hstart]
      exact hrun
    · rw [← hdone.versions_eq]
      exact hspares.indexed.idle hdone.idle hold hmoves
    · rw [hspares.kin.changes]
      exact ht.nothing
    · rw [hchanges]
      exact hdone.whole hr
    · rw [Roomy, ← ht.archive] at hroom
      exact hspares.kin.roomy hroom (Nat.le_refl _) (.inr ((hmax rfl).resolve_right hne))

end MeteredStorage
