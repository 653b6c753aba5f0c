import MeteredStorage.Proofs.PagedMap.Index

namespace MeteredStorage

def MapMerge.settled (m : MapMerge) : Bool :=
  match m.stage with
  | .publishing _ => false
  | .removing _ => true

structure Chosen (line : List Volume) (files : List Segment) : Prop where
  front : files <+: line.map Volume.segment
  two : 2 ≤ files.length

theorem Chosen.mono {line line' : List Volume} {files : List Segment} (h : Chosen line files)
    (hl : line <+: line') : Chosen line' files :=
  ⟨h.front.trans (hl.map _), h.two⟩

/-- What a merge between its steps still has to do with the stock of the map. -/
inductive Moving (k : Stock) (m : MapMerge) : Prop
  | publishing (hs : m.stage = .publishing k.moves)
      (hi : m.merge.inputs = k.old.map Volume.segment) : Moving k m
  | removing (hs : m.stage = .removing (k.old.map Volume.segment)) (hm : k.moves = []) : Moving k m

inductive Moves (k : Stock) : Progress MapMerge (Except MapError Nat) → Prop
  | running {m : MapMerge} (h : Moving k m) : Moves k (.running m)
  | done {r : Except MapError Nat} (ho : k.old = []) (hm : k.moves = []) : Moves k (.done r)

namespace Archive

theorem Shelved.chosen {a : Archive} {d : Disk} {line : List Volume} {current : Option Volume}
    (h : Shelved a d line [] current) {limit : UInt64} (htwo : ¬(a.oldest limit).length < 2) :
    Chosen line (a.oldest limit) := by
  refine ⟨?_, Nat.le_of_not_lt htwo⟩
  rw [oldest, h.completed_eq]
  exact takeWithin_prefix limit.toNat _ 0

end Archive

namespace MapMerge

variable {K : Type} {s s' : MapState K} {m m' : MapMerge}

theorem run_of_done {r : Except MapError Nat} (h : m.step s = (.done r, s')) :
    m.run s = (r, s') := by
  rw [run]
  split <;> simp_all

theorem run_of_running (h : m.step s = (.running m', s')) : m.run s = m'.run s' := by
  rw [run]
  split <;> simp_all

end MapMerge

variable {K : Type} [FixedKey K] {s s' : MapState K} {k : Stock}

theorem Located.chosen (h : Located s k) (hold : k.old = []) {limit : UInt64}
    (htwo : ¬(s.self.archive.oldest limit).length < 2) :
    Chosen k.line (s.self.archive.oldest limit) := by
  have hs := h.shelved
  rw [hold] at hs
  exact hs.chosen htwo

theorem Located.prepare_run (h : Located s k) (hold : k.old = []) (hmoves : k.moves = [])
    (hnext : s.self.archive.nextIndex.toNat + 1 < 0x100000000) {files : List Segment}
    (hfiles : Chosen k.line files) :
    ∃ p s' k', MapMerge.prepare files s = (p, s') ∧ Brings 0 1 s k s' k' ∧
      Rewrites s.self.dimensions.buckets k k' ∧
      Volume.allEntries k.volumes ⊆ Volume.allEntries k'.volumes ∧
      k'.current = k.current ∧ k'.fresh = k.fresh ∧ Moves k' p ∧
      (s.self.archive.nextIndex.toNat < Location.maxSegments ∨
        p = .done (.error (.archive .indicesExhausted))) ∧
      Disk.Within (Archive.Halted s.self.archive k.volumes s.host.disk s'.host.disk)
        s.host.disk s'.host.disk := by
  rcases h.prepareMerge_cases hold hmoves hnext hfiles.front hfiles.two with
    ⟨e, s1, hrun, hkeeps, hex, hleft⟩ |
    ⟨m, s1, line, old, hrun, hinputs, hmax, hsub, hbrings, hsame, hleft⟩
  · refine ⟨.done (.error (.archive e)), s1, k, ?_, hkeeps.toBrings, .refl _ k, fun _ he => he, rfl, rfl,
      .done hold hmoves, ?_, hleft⟩
    · simp only [MapMerge.prepare, hrun]
    · by_cases hlt : s.self.archive.nextIndex.toNat < Location.maxSegments
      · exact .inl hlt
      · exact .inr (by rw [hex.mpr (Nat.le_of_not_lt hlt)])
  · refine ⟨.running ⟨m, files.length, 0, .publishing m.moves⟩, s1, _, ?_, hbrings, hsame, hsub, rfl, rfl,
      .running (.publishing rfl hinputs), .inl hmax, hleft⟩
    simp only [MapMerge.prepare, hrun]

/-- Every step of a merge under way succeeds and keeps the volumes that stay. -/
theorem Moving.step {m : MapMerge} (hm : Moving k m) (h : Located s k) :
    ∃ p s' k', m.step s = (p, s') ∧ Keeps 0 0 s k s' k' ∧
      Rewrites s.self.dimensions.buckets k k' ∧ k'.current = k.current ∧ k'.fresh = k.fresh ∧
      Moves k' p ∧ p ≠ .done (.error (.archive .indicesExhausted)) ∧
      ∀ m', p = .running m' → m'.settled = false → m.settled = false ∧ k'.old = k.old := by
  obtain ⟨merge, files, count, stage⟩ := m
  cases hm with
  | publishing hs hi =>
      cases hs
      cases hmoves : k.moves with
      | nil =>
          refine ⟨.running ⟨merge, files, count, .removing merge.inputs⟩, s, k, rfl, h.alike (.refl s),
            .refl _ k, rfl, rfl, .running (.removing ?_ hmoves), by simp,
            fun m' he hf => by cases he; cases hf⟩
          exact congrArg MapMergeStage.removing hi
      | cons move moves =>
          exact ⟨.running ⟨merge, files, count + (s.self.relocate move).2, .publishing moves⟩,
            { s with self := (s.self.relocate move).1 }, _, rfl, h.relocated hmoves,
            .of_subset rfl rfl fun _ he => he, rfl, rfl, .running (.publishing rfl hi), by simp,
            fun _ _ _ => ⟨rfl, rfl⟩⟩
  | removing hs hmoves =>
      cases hs
      cases hold : k.old with
      | nil =>
          obtain ⟨s1, hrun, hkeeps⟩ := h.concludeMerge_run merge
          let s2 := (s1.count fun c => { c with merges := c.merges + 1 }).report
            (.mapMergeCompleted s1.self.name files count)
          have ha : Alike s1 s2 := (Alike.merged s1).trans (.report _ _)
          refine ⟨.done (.ok files), s2, k, ?_, hkeeps.trans (hkeeps.located.alike ha), .refl _ k,
            rfl, rfl, .done hold hmoves, by simp, fun m' he => by cases he⟩
          simp only [MapMerge.step, List.map_nil, hrun]
          rfl
      | cons v old =>
          obtain ⟨s1, hrun, hkeeps⟩ := h.removeSegment_run hmoves hold
          refine ⟨.running ⟨merge, files, count, .removing (old.map Volume.segment)⟩, s1, _, ?_, hkeeps,
            .of_subset rfl rfl ?_, rfl, rfl, .running (.removing rfl hmoves), by simp,
            fun m' he hf => by cases he; cases hf⟩
          · simp only [MapMerge.step, List.map_cons, hrun]
          · refine Volume.allEntries_mono ?_
            rw [Stock.volumes, Stock.volumes, hold]
            exact (((List.sublist_cons_self v old).append_left k.line).append_left _).subset

/-- A merge that nobody interrupts comes to its end, once its output is in place. -/
theorem Moving.run {m : MapMerge} (hm : Moving k m) (h : Located s k) :
    ∃ r s' k', m.run s = (r, s') ∧ Keeps 0 0 s k s' k' ∧ Rewrites s.self.dimensions.buckets k k' ∧
      k'.current = k.current ∧ k'.old = [] ∧ k'.moves = [] := by
  induction m, s using MapMerge.run.induct generalizing k with
  | case1 m s r s' hstep =>
      obtain ⟨p, s1, k', hgo, hkeeps, hsame, hcurrent, -, hp, -, -⟩ := hm.step h
      rw [hstep] at hgo
      cases hgo
      cases hp with
      | done hold hmoves =>
          exact ⟨r, s', k', MapMerge.run_of_done hstep, hkeeps, hsame, hcurrent, hold, hmoves⟩
  | case2 m s m' s' hstep ih =>
      obtain ⟨p, s1, k', hgo, hkeeps, hsame, hcurrent, -, hp, -, -⟩ := hm.step h
      rw [hstep] at hgo
      cases hgo
      cases hp with
      | running hm' =>
          obtain ⟨r, s2, k2, hrun, hkeeps2, hsame2, hcurrent2, hold, hmoves⟩ := ih hm' hkeeps.located
          rw [hkeeps.kin.dimensions] at hsame2
          exact ⟨r, s2, k2, (MapMerge.run_of_running hstep).trans hrun, hkeeps.trans hkeeps2,
            hsame.trans hsame2, hcurrent2.trans hcurrent, hold, hmoves⟩

theorem Located.merge_run (h : Located s k) (hc : k.current = none) (hold : k.old = [])
    (hmoves : k.moves = []) (hnext : s.self.archive.nextIndex.toNat + 1 < 0x100000000)
    (limit : UInt64) :
    ∃ r s' k' used, PagedMap.merge limit s = (r, s') ∧ Brings 0 used s k s' k' ∧
      Rewrites s.self.dimensions.buckets k k' ∧ used ≤ 1 ∧ k'.current = none ∧ k'.old = [] ∧
      k'.moves = [] ∧ (used = 0 ∨ s.self.archive.nextIndex.toNat < Location.maxSegments ∨
        r = .error (.archive .indicesExhausted)) := by
  by_cases hfew : (s.self.archive.oldest limit).length < 2
  · refine ⟨.ok 0, s, k, 0, ?_, (h.alike (.refl s)).toBrings, .refl _ k, Nat.zero_le _, hc, hold,
      hmoves, .inl rfl⟩
    simp only [PagedMap.merge, MapMerge.start, if_pos hfew]
  · let s1 := s.report (.mapMergeStarted s.self.name (s.self.archive.oldest limit).length)
    have h1 := (h.alike (.report s (.mapMergeStarted s.self.name
      (s.self.archive.oldest limit).length))).toBrings
    have hstart : MapMerge.start limit s = MapMerge.prepare (s.self.archive.oldest limit) s1 := by
      simp only [MapMerge.start, if_neg hfew]
      rfl
    obtain ⟨p, s2, k', hgo, hbrings, hsame, -, hcurrent, -, hp, hmax, -⟩ :=
      h1.located.prepare_run hold hmoves hnext (h.chosen hold hfew)
    cases hp with
    | @done r hold' hmoves' =>
        refine ⟨r, s2, k', 1, ?_, h1.trans hbrings, hsame, Nat.le_refl _, hcurrent.trans hc, hold',
          hmoves', .inr (hmax.imp_right fun he => ?_)⟩
        · rw [PagedMap.merge, hstart, hgo]
        · cases he
          rfl
    | @running m hm =>
        obtain ⟨r, s3, k2, hrun, hkeeps, hsame2, hcurrent2, hold', hmoves'⟩ := hm.run hbrings.located
        rw [hbrings.kin.dimensions] at hsame2
        refine ⟨r, s3, k2, 1, ?_, (h1.trans hbrings).trans hkeeps.toBrings, hsame.trans hsame2,
          Nat.le_refl _, hcurrent2.trans (hcurrent.trans hc), hold', hmoves',
          .inr (.inl (hmax.resolve_right nofun))⟩
        rw [PagedMap.merge, hstart, hgo]
        exact hrun

end MeteredStorage
