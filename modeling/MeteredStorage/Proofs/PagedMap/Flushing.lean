import MeteredStorage.Proofs.PagedMap.Index

namespace MeteredStorage

variable {K : Type} {s s' : MapState K}

theorem alike_readInto (s : MapState K) (location : Int64) (part : Part) (buffer : Bytes) :
    Alike s (s.inArchive (Archive.readInto location part buffer)).2 := by
  cases hf : s.self.archive.fetch s.host.disk location part buffer.length with
  | error e =>
      rw [MapState.inArchive_run (t := ⟨s.self.archive, s.host⟩) (r := .error e)
        (by simp [Archive.readInto, hf])]
      exact .refl s
  | ok bytes =>
      rw [MapState.inArchive_run (t := ⟨{ s.self.archive with
        counts := { s.self.archive.counts with reads := s.self.archive.counts.reads + 1 } }, s.host⟩)
        (r := .ok (bytes.length, Bytes.overlay 0 bytes buffer)) (by simp [Archive.readInto, hf])]
      constructor <;> rfl

theorem PagedMap.alike_readPage (s : MapState K) (bucket : Nat) (location : Int64) (buffer : Bytes) :
    Alike s (readPage s bucket location buffer).2 := by
  have h := alike_readInto s location .data buffer
  rw [readPage]
  split
  · rename_i heq
    rw [heq] at h
    exact h
  · rename_i heq
    rw [heq] at h
    dsimp only
    split
    · exact h
    · exact h.trans (.report _ _)
  · rename_i heq
    rw [heq] at h
    exact h

namespace Lookup

variable [FixedKey K]

theorem alike_step (l : Lookup K) (s : MapState K) : Alike s (l.step s).2 := by
  have h := PagedMap.alike_readPage s l.bucket l.location (Bytes.zeros pageSize)
  rw [step]
  split
  · exact .refl s
  · split <;> simp_all

theorem alike_run (l : Lookup K) (s : MapState K) : Alike s (l.run s).2 := by
  induction l, s using Lookup.run.induct with
  | case1 l s r s' hstep =>
      have h := l.alike_step s
      rw [hstep] at h
      rw [run]
      split <;> simp_all
  | case2 l s l' s' hstep ih =>
      have h := l.alike_step s
      rw [hstep] at h
      rw [run]
      split
      · simp_all
      · rename_i heq
        rw [hstep] at heq
        cases heq
        exact h.trans ih

end Lookup

theorem PagedMap.alike_find [FixedKey K] (key : K) (notFound : Int64) (s : MapState K) :
    Alike s (find key notFound s).2 :=
  (Alike.gotten s).trans (Lookup.alike_run _ _)

variable [FixedKey K] {f f' : Flush K} {k : Stock} {v : Volume} {b : Nat}

namespace Flush

def wants (f : Flush K) : Nat :=
  match f.stage with
  | .opening => 1
  | _ => 0

omit [FixedKey K] in
theorem wants_le (f : Flush K) : f.wants ≤ 1 := by
  unfold wants
  split <;> decide

theorem run_of_done {r : Except MapError Unit} (h : f.step s = (.done r, s')) :
    f.run s = (r, s') := by
  rw [run]
  split <;> simp_all

theorem run_of_running (h : f.step s = (.running f', s')) : f.run s = f'.run s' := by
  rw [run]
  split <;> simp_all

theorem readStep_cases (f : Flush K) (bucket : Nat) (changes : List (K × Int64)) (location : Int64)
    (s : MapState K) :
    ∃ f' s', f.readStep bucket changes location s = (f', s') ∧ Alike s s' ∧ f'.todo = f.todo ∧
      ((∃ page, f'.stage = .storing bucket page) ∨
        (∃ target, f'.stage = .reading bucket changes target) ∨
        ∃ e, f'.stage = .closing (some e)) := by
  have hcompose (page : Bytes) (t : MapState K) : ∃ f' s', f.compose bucket changes page t = (f', s') ∧
      Alike t s' ∧ f'.todo = f.todo ∧ ((∃ page, f'.stage = .storing bucket page) ∨
        (∃ target, f'.stage = .reading bucket changes target) ∨
        ∃ e, f'.stage = .closing (some e)) := by
    rw [compose]
    split
    · exact ⟨_, _, rfl, .refl t, rfl, .inl ⟨_, rfl⟩⟩
    · exact ⟨_, _, rfl, .report t _, rfl, .inr (.inr ⟨_, rfl⟩)⟩
  have hread := PagedMap.alike_readPage s bucket location f.buffer
  rw [readStep]
  split
  · exact hcompose _ s
  · split
    · rename_i page t heq
      rw [heq] at hread
      obtain ⟨f', s', hgo, ha, hrest⟩ := hcompose page t
      exact ⟨f', s', hgo, hread.trans ha, hrest⟩
    · rename_i heq
      rw [heq] at hread
      exact ⟨_, _, rfl, hread, rfl, .inr (.inl ⟨_, rfl⟩)⟩
    · rename_i heq
      rw [heq] at hread
      exact ⟨_, _, rfl, hread, rfl, .inr (.inr ⟨_, rfl⟩)⟩

theorem wants_step (h : f.step s = (.running f', s')) : f'.wants = 0 := by
  unfold step at h
  split at h
  case h_1 =>
    split at h
    · cases h
      rfl
    · cases h
  case h_2 => split at h <;> cases h <;> rfl
  case h_3 bucket changes location _ =>
    obtain ⟨g, t, hgo, -, -, hstage⟩ := f.readStep_cases bucket changes location s
    rw [hgo] at h
    cases h
    rcases hstage with ⟨page, he⟩ | ⟨target, he⟩ | ⟨e, he⟩ <;> simp only [wants, he]
  case h_4 => split at h <;> cases h <;> rfl
  case h_5 =>
    cases h
    rfl
  case h_6 => cases h

end Flush

namespace Located

theorem opening_cases (h : Located s k) (hc : k.current = none)
    (hnext : s.self.archive.nextIndex.toNat + 1 < 0x100000000) (hs : f.stage = .opening) :
    (∃ e s', f.step s = (.done (.error (.archive e)), s') ∧ Keeps 0 1 s k s' k ∧
      (e = .indicesExhausted ↔ Location.maxSegments ≤ s.self.archive.nextIndex.toNat)) ∨
    ∃ v s', f.step s = (.running (f.withStage .next), s') ∧
      s.self.archive.nextIndex.toNat < Location.maxSegments ∧
      Keeps 0 1 s k s' { k with current := some v } ∧
      Resembles s.self.dimensions.buckets k { k with current := some v } := by
  rcases h.startWriting_cases hc hnext with ⟨e, s1, hrun, hkeeps, hex⟩ |
    ⟨v, s1, hrun, hmax, hkeeps, hsame⟩
  · refine .inl ⟨e, s1.update fun m => { m with busy := false }, ?_,
      hkeeps.trans (hkeeps.located.alike (.rested s1)), hex⟩
    simp only [Flush.step, hs, hrun]
  · refine .inr ⟨v, s1, ?_, hmax, hkeeps, hsame⟩
    simp only [Flush.step, hs, hrun]

theorem storing_cases (h : Located s k) (hf : k.fresh = none) {page : Bytes}
    (hs : f.stage = .storing b page) :
    (∃ e, f.step s = (.running (f.withStage (.closing (some (.archive e)))), s) ∧
      ∀ v ∈ k.current, (⟨bucketKey b, page⟩ : Record).Fits →
        Location.maxOffset < v.dataSize + (⟨bucketKey b, page⟩ : Record).size) ∨
    ∃ v location s', k.current = some v ∧
      f.step s = (.running (f.withStage (.publishing b location)), s') ∧
      Keeps 0 0 s k s' { k with
        current := some (v.push ⟨bucketKey b, page⟩)
        fresh := some ⟨⟨bucketKey b, page⟩, location⟩ } := by
  rcases h.store_cases hf ⟨bucketKey b, page⟩ with ⟨e, hrun, hfull⟩ | ⟨v, location, s1, hc, hrun, hkeeps⟩
  · rw [bucketKey] at hrun
    exact .inl ⟨e, by simp only [Flush.step, hs, hrun], hfull⟩
  · refine .inr ⟨v, location, s1, hc, ?_, hkeeps⟩
    rw [bucketKey] at hrun
    simp only [Flush.step, hs, hrun]

theorem publishing_run (h : Located s k) (hb : b < s.self.dimensions.buckets) {r : Record}
    (hr : r.key = bucketKey b) {location : Int64} (hf : k.fresh = some ⟨r, location⟩)
    (hs : f.stage = .publishing b location) :
    ∃ s', f.step s = (.running (f.withStage .next), s') ∧
      Keeps 1 0 s k s' { k with shown := k.shown ++ [⟨r, location⟩], fresh := none } := by
  refine ⟨_, by simp only [Flush.step, hs]; rfl, h.published hb hr hf ?_ ?_ ?_ ?_⟩
  · rfl
  · exact ⟨rfl, rfl, rfl, rfl, Archive.Follows.refl _⟩
  · rfl
  · rfl

theorem closing_run (h : Located s k) (hc : k.current = some v) (hf : k.fresh = none)
    {failure : Option MapError} (hs : f.stage = .closing failure) :
    ∃ footer s', f.step s = (.done (failure.elim (.ok ()) .error), s') ∧
      Keeps 0 0 s k s' { k with line := k.line ++ [v.finished footer], current := none, shown := [] } ∧
      Resembles s.self.dimensions.buckets k
        { k with line := k.line ++ [v.finished footer], current := none, shown := [] } := by
  obtain ⟨footer, s1, hrun, hkeeps, hsame⟩ := h.endWriting_run hc hf
  have hrested := hkeeps.trans (hkeeps.located.alike (.rested s1))
  cases failure with
  | none =>
      refine ⟨footer, _, ?_, hrested.trans (hrested.located.alike
        (.report _ (.pagesWritten s1.self.name f.size))), hsame⟩
      simp only [Flush.step, hs, Flush.closeStep, hrun]
      rfl
  | some e =>
      refine ⟨footer, _, ?_, hrested, hsame⟩
      simp only [Flush.step, hs, Flush.closeStep, hrun]
      rfl

end Located

inductive Poised (buckets : Nat) (k : Stock) : FlushStage K → Prop
  | opening (hc : k.current = none) : Poised buckets k .opening
  | next (hc : k.current.isSome) (hf : k.fresh = none) : Poised buckets k .next
  | reading {bucket : Nat} {changes : List (K × Int64)} {location : Int64} (hc : k.current.isSome)
      (hf : k.fresh = none) (hb : bucket < buckets) : Poised buckets k (.reading bucket changes location)
  | storing {bucket : Nat} {page : Bytes} (hc : k.current.isSome) (hf : k.fresh = none)
      (hb : bucket < buckets) : Poised buckets k (.storing bucket page)
  | publishing {bucket : Nat} {r : Record} {location : Int64} (hc : k.current.isSome)
      (hf : k.fresh = some ⟨r, location⟩) (hr : r.key = bucketKey bucket) (hb : bucket < buckets) :
      Poised buckets k (.publishing bucket location)
  | closing {failure : Option MapError} (hc : k.current.isSome) (hf : k.fresh = none) :
      Poised buckets k (.closing failure)

structure Filling (buckets : Nat) (k : Stock) (f : Flush K) : Prop where
  bounded : ∀ c ∈ f.todo, c.1 < buckets
  poised : Poised buckets k f.stage

inductive Fills (buckets : Nat) (k : Stock) : Progress (Flush K) (Except MapError Unit) → Prop
  | running {f : Flush K} (h : Filling buckets k f) : Fills buckets k (.running f)
  | done {r : Except MapError Unit} (hc : k.current = none) : Fills buckets k (.done r)

/-- Every step of a flush keeps the slots of the map leading into its archive. -/
theorem Filling.step (hf : Filling s.self.dimensions.buckets k f) (h : Located s k)
    (hnext : s.self.archive.nextIndex.toNat + f.wants < 0x100000000) :
    ∃ p s' k' written, f.step s = (p, s') ∧ Keeps written f.wants s k s' k' ∧ k'.old = k.old ∧
      k'.moves = k.moves ∧ k.line <+: k'.line ∧ Fills s.self.dimensions.buckets k' p ∧
      (f.wants = 1 → s.self.archive.nextIndex.toNat < Location.maxSegments ∨
        p = .done (.error (.archive .indicesExhausted))) := by
  obtain ⟨todo, size, buffer, stage⟩ := f
  obtain ⟨hbounded, hpoised⟩ := hf
  have hsame := h.alike (.refl s)
  cases hpoised with
  | opening hc =>
      rcases h.opening_cases (f := ⟨todo, size, buffer, .opening⟩) hc hnext rfl with
        ⟨e, s1, hgo, hkeeps, hex⟩ | ⟨v, s1, hgo, hmax, hkeeps, -⟩
      · refine ⟨_, s1, k, 0, hgo, hkeeps, rfl, rfl, List.prefix_rfl, .done hc, fun _ => ?_⟩
        by_cases hlt : s.self.archive.nextIndex.toNat < Location.maxSegments
        · exact .inl hlt
        · exact .inr (by rw [hex.mpr (Nat.le_of_not_lt hlt)])
      · exact ⟨_, s1, _, 0, hgo, hkeeps, rfl, rfl, List.prefix_rfl,
          .running ⟨hbounded, .next rfl (h.points.idle hc).2⟩, fun _ => .inl hmax⟩
  | next hc hf =>
      cases todo with
      | nil =>
          exact ⟨.running ⟨[], size, buffer, .closing none⟩, s, k, 0, rfl, hsame, rfl, rfl,
            List.prefix_rfl, .running ⟨hbounded, .closing hc hf⟩, nofun⟩
      | cons c todo =>
          obtain ⟨bucket, changes⟩ := c
          exact ⟨.running ⟨todo, size, buffer, .reading bucket changes (s.self.table.get bucket)⟩, s, k, 0,
            rfl, hsame, rfl, rfl, List.prefix_rfl,
            .running ⟨fun c hc => hbounded c (List.mem_cons_of_mem _ hc),
              .reading hc hf (hbounded _ (List.mem_cons_self ..))⟩, nofun⟩
  | @reading bucket changes location hc hf hb =>
      obtain ⟨f', s', hgo, ha, htodo, hstage⟩ := Flush.readStep_cases
        ⟨todo, size, buffer, .reading bucket changes location⟩ bucket changes location s
      refine ⟨.running f', s', k, 0, by simp only [Flush.step, hgo], h.alike ha, rfl, rfl,
        List.prefix_rfl, .running ⟨by rw [htodo]; exact hbounded, ?_⟩, nofun⟩
      rcases hstage with ⟨page, he⟩ | ⟨target, he⟩ | ⟨e, he⟩
      · rw [he]
        exact .storing hc hf hb
      · rw [he]
        exact .reading hc hf hb
      · rw [he]
        exact .closing hc hf
  | @storing bucket page hc hf hb =>
      rcases h.storing_cases (f := ⟨todo, size, buffer, .storing bucket page⟩) hf rfl with
        ⟨e, hgo, -⟩ | ⟨v, location, s1, -, hgo, hkeeps⟩
      · exact ⟨_, s, k, 0, hgo, hsame, rfl, rfl, List.prefix_rfl,
          .running ⟨hbounded, .closing hc hf⟩, nofun⟩
      · exact ⟨_, s1, _, 0, hgo, hkeeps, rfl, rfl, List.prefix_rfl,
          .running ⟨hbounded, .publishing rfl rfl rfl hb⟩, nofun⟩
  | @publishing bucket r location hc hf hr hb =>
      obtain ⟨s1, hgo, hkeeps⟩ := h.publishing_run
        (f := ⟨todo, size, buffer, .publishing bucket location⟩) hb hr hf rfl
      exact ⟨_, s1, _, 1, hgo, hkeeps, rfl, rfl, List.prefix_rfl, .running ⟨hbounded, .next hc rfl⟩, nofun⟩
  | @closing failure hc hf =>
      obtain ⟨v, hv⟩ := Option.isSome_iff_exists.mp hc
      obtain ⟨footer, s1, hgo, hkeeps, -⟩ := h.closing_run
        (f := ⟨todo, size, buffer, .closing failure⟩) hv hf rfl
      exact ⟨_, s1, _, 0, hgo, hkeeps, rfl, rfl, List.prefix_append .., .done rfl, nofun⟩

theorem Filling.run (hf : Filling s.self.dimensions.buckets k f) (h : Located s k)
    (hnext : s.self.archive.nextIndex.toNat + f.wants < 0x100000000) :
    ∃ r s' k' written, f.run s = (r, s') ∧ Keeps written f.wants s k s' k' ∧ k'.old = k.old ∧
      k'.moves = k.moves ∧ k'.current = none ∧
      (f.wants = 1 → s.self.archive.nextIndex.toNat < Location.maxSegments ∨
        r = .error (.archive .indicesExhausted)) := by
  induction f, s using Flush.run.induct generalizing k with
  | case1 f s r s' hstep =>
      obtain ⟨p, s1, k', written, hgo, hkeeps, hold, hmoves, -, hfills, hmax⟩ := hf.step h hnext
      rw [hstep] at hgo
      cases hgo
      cases hfills with
      | done hc =>
          refine ⟨r, s', k', written, Flush.run_of_done hstep, hkeeps, hold, hmoves, hc,
            fun hone => (hmax hone).imp_right fun he => ?_⟩
          cases he
          rfl
  | case2 f s f' s' hstep ih =>
      obtain ⟨p, s1, k', written, hgo, hkeeps, hold, hmoves, -, hfills, hmax⟩ := hf.step h hnext
      rw [hstep] at hgo
      cases hgo
      have hzero : f'.wants = 0 := Flush.wants_step hstep
      cases hfills with
      | running hf' =>
          rw [← hkeeps.kin.dimensions] at hf'
          obtain ⟨r, s2, k2, written2, hrun, hkeeps2, hold2, hmoves2, hc, -⟩ :=
            ih hf' hkeeps.located (by
              rw [hkeeps.kin.follows.nextIndex, hzero]
              exact hnext)
          rw [hzero] at hkeeps2
          exact ⟨r, s2, k2, _, (Flush.run_of_running hstep).trans hrun, hkeeps.trans hkeeps2,
            hold2.trans hold, hmoves2.trans hmoves, hc, fun hone => .inl ((hmax hone).resolve_right nofun)⟩

end MeteredStorage
