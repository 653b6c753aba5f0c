import MeteredStorage.Proofs.PagedMap.Answers
import MeteredStorage.Proofs.PagedMap.Weathering

namespace MeteredStorage

variable {K : Type} [FixedKey K] {origin s s' : MapState K} {k k' : Stock} {b m n : Nat}

namespace Flush

variable {f : Flush K} {p : Progress (Flush K) (Except MapError Unit)}

omit [FixedKey K] in
theorem closeStep_self (f : Flush K) (failure : Option MapError) (s : MapState K) :
    (f.closeStep failure s).2.self.busy = false ∧
      (f.closeStep failure s).2.self.table = s.self.table := by
  have ht := s.table_inArchive (Archive.endWriting 0 (Int64.ofInt s.self.dimensions.buckets))
  rcases hrun : s.inArchive (Archive.endWriting 0 (Int64.ofInt s.self.dimensions.buckets)) with ⟨r, t⟩
  rw [hrun] at ht
  rw [closeStep]
  dsimp only
  rw [hrun]
  split <;> exact ⟨rfl, ht⟩

/-- Only a step that publishes a location changes the table. -/
theorem table_step (h : f.step s = (p, s')) (hs : ∀ b location, f.stage ≠ .publishing b location) :
    s'.self.table = s.self.table := by
  unfold step at h
  split at h
  · have ht := s.table_inArchive Archive.startWriting
    split at h
    · rename_i heq
      rw [heq] at ht
      cases h
      exact ht
    · rename_i heq
      rw [heq] at ht
      cases h
      exact ht
  · split at h <;> cases h <;> rfl
  · rename_i bucket changes location _
    obtain ⟨f', t, hgo, ha, -⟩ := f.readStep_cases bucket changes location s
    rw [hgo] at h
    cases h
    exact ha.table
  · rename_i bucket page _
    have ht := s.table_inArchive (Archive.store ⟨Int64.ofInt bucket, page⟩)
    split at h
    · rename_i heq
      rw [heq] at ht
      cases h
      exact ht
    · rename_i heq
      rw [heq] at ht
      cases h
      exact ht
  · exact absurd ‹_› (hs _ _)
  · rename_i failure _
    have ht := (f.closeStep_self failure s).2
    cases h
    exact ht

theorem table_publishing {location : Int64} (h : f.step s = (p, s'))
    (hs : f.stage = .publishing b location) : s'.self.table = s.self.table.set b location := by
  simp only [step, hs] at h
  cases h
  rfl

theorem idle_step {r : Except MapError Unit} (h : f.step s = (.done r, s')) :
    s'.self.busy = false := by
  unfold step at h
  split at h
  · split at h
    · cases h
    · cases h
      rfl
  · split at h <;> cases h
  · cases h
  · split at h <;> cases h
  · cases h
  · rename_i failure _
    have ht := (f.closeStep_self failure s).1
    cases h
    exact ht

omit [FixedKey K] in
theorem done_of_start {r : Except MapError Unit} (h : start s = (.done r, s')) :
    r = .error .noSession ∨ r = .ok () := by
  unfold start at h
  split at h
  · cases h
    exact .inl rfl
  · cases h
    exact .inr rfl
  · cases h

/-- A session that finds the page of a bucket at fault has got an index for its segment. -/
theorem hasIndex_of_run {e : MapError} {t : MapState K}
    (hs : f.stage = .opening) (hw : s.self.archive.writer = none) (h : f.run s = (.error e, t))
    (he : e.bucket?.isSome) : s.self.archive.nextIndex.toNat < Location.maxSegments := by
  refine Nat.lt_of_not_le fun hfull => ?_
  have hrefused : (Archive.startWriting ⟨s.self.archive, s.host⟩).1 = .error .indicesExhausted := by
    simp [Archive.startWriting, Archive.createSegment, hw, hfull]
  rcases hgo : Archive.startWriting ⟨s.self.archive, s.host⟩ with ⟨r, a⟩
  rw [hgo] at hrefused
  cases hrefused
  have hstep : f.step s = (.done (.error (.archive .indicesExhausted)),
      (s.withArchive a).update fun m => { m with busy := false }) := by
    simp only [step, hs, MapState.inArchive_run hgo]
  rw [run_of_done hstep] at h
  cases h
  cases he

end Flush

def Rewritten (origin s : MapState K) (b : Nat) (changes : Bindings K) : Prop :=
  ∃ page page', Yields origin b page ∧
    Flush.applyChanges origin.self.dimensions.form changes page = .ok page' ∧ Yields s b page'

structure Patched (origin s : MapState K) (past : ChangeSet K) : Prop where
  form : s.self.dimensions = origin.self.dimensions
  bounded : ∀ c ∈ past, c.1 < origin.self.dimensions.buckets
  written : ∀ c ∈ past, Rewritten origin s c.1 c.2
  others : ∀ b < origin.self.dimensions.buckets, b ∉ past.map Prod.fst → SamePage b origin s

variable {changes past : ChangeSet K} {f : Flush K}

theorem Patched.nothing (s : MapState K) : Patched s s [] where
  form := rfl
  bounded _ hc := by cases hc
  written _ hc := by cases hc
  others b _ _ := .refl b s

theorem Patched.kept (h : Patched origin s past)
    (hs : ∀ b < origin.self.dimensions.buckets, SamePage b s s')
    (hd : s'.self.dimensions = s.self.dimensions) :
    Patched origin s' past where
  form := hd.trans h.form
  bounded := h.bounded
  written c hc := by
    obtain ⟨page, page', hy, ha, hy'⟩ := h.written c hc
    exact ⟨page, page', hy, ha, hy'.same (hs _ (h.bounded c hc))⟩
  others b hb hnot := (h.others b hb hnot).trans (hs b hb)

theorem Patched.extended {changes : Bindings K} (h : Patched origin s past)
    (hb : b < origin.self.dimensions.buckets) (hnot : b ∉ past.map Prod.fst)
    (hd : s'.self.dimensions = s.self.dimensions)
    (hs : ∀ c < origin.self.dimensions.buckets, c ≠ b → SamePage c s s')
    (hnew : Rewritten origin s' b changes) : Patched origin s' (past ++ [(b, changes)]) where
  form := hd.trans h.form
  bounded c hc := by
    rcases List.mem_append.mp hc with hc | hc
    · exact h.bounded c hc
    · rw [List.mem_singleton.mp hc]
      exact hb
  written c hc := by
    rcases List.mem_append.mp hc with hc | hc
    · obtain ⟨page, page', hy, ha, hy'⟩ := h.written c hc
      have hne : c.1 ≠ b := fun he => hnot (List.mem_map.mpr ⟨c, hc, he⟩)
      exact ⟨page, page', hy, ha, hy'.same (hs _ (h.bounded c hc) hne)⟩
    · rw [List.mem_singleton.mp hc]
      exact hnew
  others c hc hnotc := by
    rw [List.map_append, List.mem_append, not_or] at hnotc
    exact (h.others c hc hnotc.1).trans (hs c hc fun he => hnotc.2 (by simp [he]))

inductive Composes (origin s : MapState K) (k : Stock) (changes past todo : ChangeSet K) :
    FlushStage K → Prop
  | opening (hc : k.current = none) (he : changes = past ++ todo) :
      Composes origin s k changes past todo .opening
  | next (hc : k.current.isSome) (hf : k.fresh = none) (he : changes = past ++ todo) :
      Composes origin s k changes past todo .next
  | reading {b : Nat} {bs : Bindings K} (hc : k.current.isSome) (hf : k.fresh = none)
      (he : changes = past ++ (b, bs) :: todo) :
      Composes origin s k changes past todo (.reading b bs (s.self.table.get b))
  | storing {b : Nat} {bs : Bindings K} {page page' : Bytes} (hc : k.current.isSome)
      (hf : k.fresh = none) (he : changes = past ++ (b, bs) :: todo) (hy : Yields origin b page)
      (ha : Flush.applyChanges origin.self.dimensions.form bs page = .ok page') :
      Composes origin s k changes past todo (.storing b page')
  | publishing {b : Nat} {bs : Bindings K} {page page' : Bytes} {location : Int64}
      (hc : k.current.isSome) (hf : k.fresh = some ⟨⟨bucketKey b, page'⟩, location⟩)
      (he : changes = past ++ (b, bs) :: todo) (hy : Yields origin b page)
      (ha : Flush.applyChanges origin.self.dimensions.form bs page = .ok page') :
      Composes origin s k changes past todo (.publishing b location)
  | closing {failure : Option MapError} (hc : k.current.isSome) (hf : k.fresh = none)
      (hp : past <+: changes) (hb : ∀ e ∈ failure, ∀ i, e.bucket? = some i →
        ∃ b bs rest, i = (b : Nat) ∧ changes = past ++ (b, bs) :: rest) :
      Composes origin s k changes past todo (.closing failure)

structure Composing (origin : MapState K) (changes : ChangeSet K) (s : MapState K) (k : Stock)
    (past : ChangeSet K) (f : Flush K) : Prop where
  located : Located s k
  old : k.old = []
  moves : k.moves = []
  patched : Patched origin s past
  buffer : f.buffer.length = pageSize
  stage : Composes origin s k changes past f.todo f.stage

structure Composed (origin : MapState K) (changes : ChangeSet K) (s : MapState K) (k : Stock)
    (past : ChangeSet K) (r : Except MapError Unit) : Prop where
  located : Located s k
  old : k.old = []
  moves : k.moves = []
  patched : Patched origin s past
  current : k.current = none
  idle : s.self.busy = false
  part : past <+: changes
  failed : ∀ e, r = .error e → ∀ i, e.bucket? = some i →
    ∃ b bs rest, i = (b : Nat) ∧ changes = past ++ (b, bs) :: rest

inductive Goes (origin : MapState K) (changes : ChangeSet K) (s : MapState K) (k : Stock)
    (past : ChangeSet K) : Progress (Flush K) (Except MapError Unit) → Prop
  | running {f : Flush K} (h : Composing origin changes s k past f) :
      Goes origin changes s k past (.running f)
  | done {r : Except MapError Unit} (h : Composed origin changes s k past r) :
      Goes origin changes s k past (.done r)

def Advances (origin : MapState K) (changes : ChangeSet K) (used : Nat) (s : MapState K) (k : Stock)
    (p : Progress (Flush K) (Except MapError Unit)) (s' : MapState K) : Prop :=
  ∃ k' past' written, Keeps written used s k s' k' ∧ Goes origin changes s' k' past' p

namespace Composing

variable {todo : ChangeSet K} {size : Nat} {buffer : Bytes}

theorem patched_kept (h : Composing origin changes s k past f) (hk : Keeps m n s k s' k')
    (ht : s'.self.table = s.self.table) : Patched origin s' past := by
  refine h.patched.kept (fun b hb => hk.samePage h.located h.moves ?_ (by rw [ht])) hk.kin.dimensions
  rw [h.patched.form]
  exact hb

theorem step_opening (h : Composing origin changes s k past ⟨todo, size, buffer, .opening⟩)
    (hnext : s.self.archive.nextIndex.toNat + 1 < 0x100000000) :
    ∃ p s', Flush.step ⟨todo, size, buffer, .opening⟩ s = (p, s') ∧
      Advances origin changes 1 s k p s' := by
  have hstage := h.stage
  cases hstage with
  | opening hc he =>
      rcases h.located.opening_cases (f := ⟨todo, size, buffer, .opening⟩) hc hnext rfl with
        ⟨e, s1, hgo, hkeeps, -⟩ | ⟨v, s1, hgo, -, hkeeps, -⟩
      · have hpatched := h.patched_kept hkeeps (Flush.table_step hgo nofun)
        refine ⟨_, s1, hgo, k, past, 0, hkeeps, .done ⟨hkeeps.located, h.old, h.moves, hpatched, hc,
          Flush.idle_step hgo, ⟨todo, he.symm⟩, fun e' he' i hi => ?_⟩⟩
        cases he'
        cases hi
      · have hpatched := h.patched_kept hkeeps (Flush.table_step hgo nofun)
        exact ⟨_, s1, hgo, _, past, 0, hkeeps, .running ⟨hkeeps.located, h.old, h.moves, hpatched,
          h.buffer, .next rfl (h.located.points.idle hc).2 he⟩⟩

theorem step_next (h : Composing origin changes s k past ⟨todo, size, buffer, .next⟩) :
    ∃ p s', Flush.step ⟨todo, size, buffer, .next⟩ s = (p, s') ∧
      Advances origin changes 0 s k p s' := by
  have hsame := h.located.alike (.refl s)
  have hstage := h.stage
  cases hstage with
  | next hc hf he =>
      cases todo with
      | nil =>
          exact ⟨_, s, rfl, k, past, 0, hsame, .running ⟨h.located, h.old, h.moves, h.patched, h.buffer,
            .closing hc hf ⟨[], he.symm⟩ nofun⟩⟩
      | cons c todo =>
          exact ⟨_, s, rfl, k, past, 0, hsame, .running ⟨h.located, h.old, h.moves, h.patched, h.buffer,
            .reading hc hf he⟩⟩

variable [DecidableEq K] [LawfulKey K]

theorem compose {b : Nat} {bs : Bindings K} {page : Bytes} {location : Int64}
    (h : Composing origin changes s k past ⟨todo, size, buffer, .reading b bs location⟩)
    (hcollected : Collected origin.self.dimensions changes) (he : changes = past ++ (b, bs) :: todo)
    (hc : k.current.isSome) (hf : k.fresh = none) (hy : Yields origin b page) :
    ∃ f t, Flush.compose ⟨todo, size, buffer, .reading b bs location⟩ b bs page s = (f, t) ∧
      Alike s t ∧ Composing origin changes t k past f := by
  have hm : (b, bs) ∈ changes := by simp [he]
  have hshaped : Shaped K origin.self.dimensions := h.patched.form ▸ h.located.shaped
  have hvalid := hy.valid hshaped (hcollected.bounded _ hm)
  have hpatched {t : MapState K} (ha : Alike s t) : Patched origin t past :=
    h.patched_kept (h.located.alike ha) ha.table
  rcases Flush.applyChanges_cases hshaped.keySize hvalid (hcollected.keys _ hm) with
    ⟨page', hgo, hvalid', -⟩ | ⟨index, page', hgo, hindex⟩
  · refine ⟨⟨todo, size, page', .storing b page'⟩, s, ?_, .refl s, h.located, h.old, h.moves, h.patched,
      hvalid'.length, .storing hc hf he hy hgo⟩
    rw [← h.patched.form] at hgo
    simp only [Flush.compose, hgo, Flush.withStage]
  · have ha := Alike.report s
      (.pageOverflow (Page.listing s.self.dimensions.form page') bs.length)
    refine ⟨⟨todo, size, buffer, .closing (some (.pageFull index))⟩, _, ?_, ha,
      (h.located.alike ha).located, h.old, h.moves, hpatched ha, h.buffer,
      .closing hc hf ⟨_, he.symm⟩ fun e hfull i hi => ?_⟩
    · rw [← h.patched.form] at hgo
      simp only [Flush.compose, hgo, Flush.withStage]
    · cases hfull
      exact ⟨b, bs, todo, (Option.some.inj hi).symm.trans hindex, he⟩

theorem step_reading {b : Nat} {bs : Bindings K} {location : Int64}
    (h : Composing origin changes s k past ⟨todo, size, buffer, .reading b bs location⟩)
    (hcollected : Collected origin.self.dimensions changes) :
    ∃ p s', Flush.step ⟨todo, size, buffer, .reading b bs location⟩ s = (p, s') ∧
      Advances origin changes 0 s k p s' := by
  have hstage := h.stage
  cases hstage with
  | reading hc hf he =>
      have hm : (b, bs) ∈ changes := by simp [he]
      have hnot : b ∉ past.map Prod.fst := by
        rw [he] at hcollected
        exact hcollected.not_mem
      -- The bucket has not been written, so its page is that of the beginning.
      have hfirst {page : Bytes} (hy : Yields s b page) : Yields origin b page :=
        hy.same (h.patched.others b (hcollected.bounded _ hm) hnot).symm
      by_cases hzero : s.self.table.get b = 0
      · obtain ⟨f, t, hgo, ha, hf'⟩ := h.compose hcollected he hc hf (hfirst (.fresh hzero))
        refine ⟨.running f, t, ?_, k, past, 0, h.located.alike ha, .running hf'⟩
        simp only [Flush.step, Flush.readStep, if_pos hzero, hgo]
      · have hread := PagedMap.readPage_slot s b buffer
        have ha := PagedMap.alike_readPage s b (s.self.table.get b) buffer
        rcases hrun : PagedMap.readPage s b (s.self.table.get b) buffer with ⟨r, t⟩
        rw [hrun] at hread ha
        have hkeeps := h.located.alike ha
        have ht : Composing origin changes t k past
            ⟨todo, size, buffer, .reading b bs (s.self.table.get b)⟩ :=
          ⟨hkeeps.located, h.old, h.moves, h.patched_kept hkeeps ha.table, h.buffer,
            ha.table ▸ .reading hc hf he⟩
        cases hp : PagedMap.pageOf s b buffer with
        | ok page =>
            rw [hp] at hread
            cases hread
            obtain ⟨hfetch, hvalid⟩ := (PagedMap.pageOf_eq_ok h.buffer).mp hp
            obtain ⟨f, u, hgo, ha', hf'⟩ := ht.compose hcollected he hc hf
              (hfirst (.stored hzero hfetch hvalid))
            refine ⟨.running f, u, ?_, k, past, 0, hkeeps.trans (hkeeps.located.alike ha'),
              .running hf'⟩
            simp only [Flush.step, Flush.readStep, if_neg hzero, hrun, hgo]
        | error e =>
            rw [hp] at hread
            cases hread
            refine ⟨.running ⟨todo, size, buffer, .closing (some e)⟩, t, ?_, k, past, 0, hkeeps,
              .running ⟨ht.located, ht.old, ht.moves, ht.patched, h.buffer,
                .closing hc hf ⟨_, he.symm⟩ fun e' hfailed i hi => ?_⟩⟩
            · simp only [Flush.step, Flush.readStep, if_neg hzero, hrun, Flush.withStage]
            · cases hfailed
              exact ⟨b, bs, todo, PagedMap.bucket_of_pageOf hp hi, he⟩

omit [DecidableEq K] [LawfulKey K] in
theorem step_storing {b : Nat} {page : Bytes}
    (h : Composing origin changes s k past ⟨todo, size, buffer, .storing b page⟩) :
    ∃ p s', Flush.step ⟨todo, size, buffer, .storing b page⟩ s = (p, s') ∧
      Advances origin changes 0 s k p s' := by
  have hstage := h.stage
  cases hstage with
  | storing hc hf he hy ha =>
      rcases h.located.storing_cases (f := ⟨todo, size, buffer, .storing b page⟩) hf rfl with
        ⟨e, hgo, -⟩ | ⟨v, location, s1, -, hgo, hkeeps⟩
      · refine ⟨_, s, hgo, k, past, 0, h.located.alike (.refl s), .running ⟨h.located, h.old, h.moves,
          h.patched, h.buffer, .closing hc hf ⟨_, he.symm⟩ fun e' hfailed i hi => ?_⟩⟩
        cases hfailed
        cases hi
      · exact ⟨_, s1, hgo, _, past, 0, hkeeps, .running ⟨hkeeps.located, h.old, h.moves,
          h.patched_kept hkeeps (Flush.table_step hgo nofun), h.buffer, .publishing rfl rfl he hy ha⟩⟩

theorem step_publishing {b : Nat} {location : Int64}
    (h : Composing origin changes s k past ⟨todo, size, buffer, .publishing b location⟩)
    (hcollected : Collected origin.self.dimensions changes) :
    ∃ p s', Flush.step ⟨todo, size, buffer, .publishing b location⟩ s = (p, s') ∧
      Advances origin changes 0 s k p s' := by
  have hstage := h.stage
  cases hstage with
  | @publishing b bs page page' location hc hf he hy ha =>
      have hm : (b, bs) ∈ changes := by simp [he]
      have hb := hcollected.bounded _ hm
      have hshaped : Shaped K origin.self.dimensions := h.patched.form ▸ h.located.shaped
      have hnot : b ∉ past.map Prod.fst := by
        rw [he] at hcollected
        exact hcollected.not_mem
      obtain ⟨s1, hgo, hkeeps⟩ := h.located.publishing_run
        (f := ⟨todo, size, buffer, .publishing b location⟩) (h.patched.form ▸ hb) rfl hf rfl
      have ht := Flush.table_publishing hgo rfl
      have hnew : Rewritten origin s1 b bs := by
        obtain ⟨hvalid, -⟩ :=
          Flush.of_applyChanges hshaped.keySize (hy.valid hshaped hb) (hcollected.keys _ hm) ha
        rw [← h.patched.form, ← hkeeps.kin.dimensions] at hvalid
        exact ⟨page, page', hy, ha, .of_fresh h.located hf hkeeps (by
          rw [ht, PageTable.get_set, if_pos rfl]) hvalid⟩
      have hpatched := h.patched.extended hb hnot hkeeps.kin.dimensions (fun c hc hne =>
        hkeeps.samePage h.located h.moves (h.patched.form.symm ▸ hc) (by
          rw [ht, PageTable.get_set, if_neg hne])) hnew
      exact ⟨_, s1, hgo, _, past ++ [(b, bs)], 1, hkeeps, .running ⟨hkeeps.located, h.old, h.moves,
        hpatched, h.buffer, .next hc rfl (by rw [he, List.append_assoc]; rfl)⟩⟩

omit [DecidableEq K] [LawfulKey K] in
theorem step_closing {failure : Option MapError}
    (h : Composing origin changes s k past ⟨todo, size, buffer, .closing failure⟩) :
    ∃ p s', Flush.step ⟨todo, size, buffer, .closing failure⟩ s = (p, s') ∧
      Advances origin changes 0 s k p s' := by
  have hstage := h.stage
  cases hstage with
  | closing hc hf hp hb =>
      obtain ⟨v, hv⟩ := Option.isSome_iff_exists.mp hc
      obtain ⟨footer, s1, hgo, hkeeps, -⟩ := h.located.closing_run
        (f := ⟨todo, size, buffer, .closing failure⟩) hv hf rfl
      refine ⟨_, s1, hgo, _, past, 0, hkeeps, .done ⟨hkeeps.located, h.old, h.moves,
        h.patched_kept hkeeps (Flush.table_step hgo nofun), rfl, Flush.idle_step hgo, hp,
        fun e hr => ?_⟩⟩
      cases failure with
      | none => cases hr
      | some e' =>
          cases hr
          exact hb e rfl

/-- Every step of a flush writes the page of a bucket as a whole or not at all. -/
theorem step (h : Composing origin changes s k past f)
    (hcollected : Collected origin.self.dimensions changes)
    (hnext : s.self.archive.nextIndex.toNat + f.wants < 0x100000000) :
    ∃ p s', f.step s = (p, s') ∧ Advances origin changes f.wants s k p s' := by
  obtain ⟨todo, size, buffer, stage⟩ := f
  cases stage with
  | opening => exact h.step_opening hnext
  | next => exact h.step_next
  | reading bucket bs location => exact h.step_reading hcollected
  | storing bucket page => exact h.step_storing
  | publishing bucket location => exact h.step_publishing hcollected
  | closing failure => exact h.step_closing

theorem run (h : Composing origin changes s k past f)
    (hcollected : Collected origin.self.dimensions changes)
    (hnext : s.self.archive.nextIndex.toNat + f.wants < 0x100000000) :
    ∃ r s' k' past' written, f.run s = (r, s') ∧ Keeps written f.wants s k s' k' ∧
      Composed origin changes s' k' past' r := by
  induction f, s using Flush.run.induct generalizing k past with
  | case1 f s r s' hstep =>
      obtain ⟨p, s1, hgo, k', past', written, hkeeps, hgoes⟩ := h.step hcollected hnext
      rw [hstep] at hgo
      cases hgo
      cases hgoes with
      | done hdone => exact ⟨r, s', k', past', written, Flush.run_of_done hstep, hkeeps, hdone⟩
  | case2 f s f' s' hstep ih =>
      obtain ⟨p, s1, hgo, k', past', written, hkeeps, hgoes⟩ := h.step hcollected hnext
      rw [hstep] at hgo
      cases hgo
      have hzero : f'.wants = 0 := Flush.wants_step hstep
      cases hgoes with
      | running h' =>
          obtain ⟨r, s2, k2, past2, written2, hrun, hkeeps2, hdone⟩ := ih h' (by
            rw [hkeeps.kin.follows.nextIndex, hzero]
            exact hnext)
          rw [hzero] at hkeeps2
          exact ⟨r, s2, k2, past2, _, (Flush.run_of_running hstep).trans hrun, hkeeps.trans hkeeps2,
            hdone⟩

end Composing

/--
A session that has failed because of the page of `bucket` and has made `t` of the map `s`: the keys of
the buckets of `written` have got all of its changes, and each other key is answered as it was.
-/
structure Divides [DecidableEq K] (s t : MapState K) (changes : ChangeSet K) (bucket : Nat)
    (written : List Nat) : Prop where
  touched : ∀ b ∈ bucket :: written, b ∈ changes.map Prod.fst
  apart : bucket ∉ written
  whole : ∀ (key : K) (notFound : Int64), (s.self.place key).2 ∈ written →
    ∃ value, (PagedMap.find key notFound s).1 = .ok value ∧ (PagedMap.find key notFound t).1 =
      .ok ((changes.value? (s.self.place key).2 key).getD value)
  kept : ∀ (key : K) (notFound : Int64), (s.self.place key).2 ∉ written →
    (PagedMap.find key notFound t).1 = (PagedMap.find key notFound s).1
  slot : t.self.table.get bucket = s.self.table.get bucket
  closed : t.self.changes = none ∧ t.self.busy = false ∧ t.self.archive.writer = none

section Division

variable [DecidableEq K] [LawfulKey K] {r : Except MapError Unit}

/-- Lookups in a bucket that has got its changes find these first. -/
theorem Rewritten.find_eq {key : K} {bs : Bindings K}
    (h : Rewritten origin s (origin.self.place key).2 bs) (hd : Shaped K origin.self.dimensions)
    (hform : s.self.dimensions = origin.self.dimensions) (hn : (bs.map Prod.fst).Nodup)
    (notFound : Int64) : ∃ value, (PagedMap.find key notFound origin).1 = .ok value ∧
      (PagedMap.find key notFound s).1 = .ok ((bs.lookup key).getD value) := by
  obtain ⟨page, page', hy, ha, hy'⟩ := h
  have hb : (origin.self.place key).2 < origin.self.dimensions.buckets := Nat.mod_lt _ hd.buckets_pos
  have hplace : s.self.place key = origin.self.place key := by
    rw [PagedMap.place, PagedMap.place, hform]
  obtain ⟨-, hvalues⟩ := Flush.of_applyChanges hd.keySize (hy.valid hd hb) hn ha
  rw [← hplace] at hy'
  refine ⟨_, hy.find_eq hd notFound, ?_⟩
  rw [hy'.find_eq (hform.symm ▸ hd) notFound, hform, hvalues]
  cases bs.lookup key <;> rfl

theorem Composed.divides {t : MapState K} (h : Composed s' changes t k past r) (ht : Takes s s')
    (hd : Shaped K s.self.dimensions) (hc : Collected s.self.dimensions changes)
    (hkin : t.self.changes = none) {b : Nat} {bs : Bindings K} {rest : ChangeSet K}
    (he : changes = past ++ (b, bs) :: rest) : Divides s t changes b (past.map Prod.fst) where
  touched c hm := by
    rw [he, List.map_append, List.map_cons, List.mem_append, List.mem_cons]
    rcases List.mem_cons.mp hm with rfl | hm
    · exact .inr (.inl rfl)
    · exact .inl hm
  apart := by
    rw [he] at hc
    exact hc.not_mem
  whole key notFound hm := by
    obtain ⟨⟨c, bs⟩, hcm, hplace⟩ := List.mem_map.mp hm
    have hin : (c, bs) ∈ changes := h.part.subset hcm
    have hform := ht.remains.dimensions
    have hsame : (s'.self.place key) = s.self.place key := place_of_remains ht.remains key
    have hrewritten := h.patched.written _ hcm
    obtain rfl : c = (s'.self.place key).2 := by rw [hsame]; exact hplace
    obtain ⟨value, hbefore, hafter⟩ :=
      hrewritten.find_eq (hform.symm ▸ hd) h.patched.form (hc.keys _ hin) notFound
    rw [(ht.samePage _).find_eq] at hbefore
    have hlookup := (lookup_eq_some_iff_mem hc.buckets _ _).mpr hin
    refine ⟨value, hbefore, ?_⟩
    rw [hafter, ChangeSet.value?, ← hsame, hlookup, Option.getD_some]
  kept key notFound hnot := by
    have hb : (s.self.place key).2 < s'.self.dimensions.buckets := by
      rw [ht.remains.dimensions]
      exact Nat.mod_lt _ hd.buckets_pos
    exact ((ht.samePage _).trans (h.patched.others _ hb hnot)).find_eq notFound
  slot := by
    have hb : b < s'.self.dimensions.buckets := by
      rw [ht.remains.dimensions]
      exact hc.bounded (b, bs) (by simp [he])
    rw [he] at hc
    exact (h.patched.others b hb hc.not_mem).slot.trans (ht.samePage b).slot
  closed := ⟨hkin, h.idle, by rw [h.located.shelved.writer, h.current]; rfl⟩

end Division

section Sessions

variable [DecidableEq K] [LawfulKey K] {directory : Path} {name : String} {mapSize : UInt64}
  {t : MapState K}

/-- A session that is not over at once has something to write, and how it ends divides its buckets. -/
theorem Rests.composed {line : List Volume} (h : Rests s line) {e : MapError}
    (hrun : PagedMap.endWriting s = (.error e, t)) (he : e.bucket?.isSome) :
    ∃ changes s1 k past, s.self.changes = some changes ∧ Takes s s1 ∧ Remains s t ∧
      t.self.changes = none ∧ Composed s1 changes t k past (.error e) := by
  obtain ⟨s1, ht, ⟨r, hstart, hnone⟩ | ⟨changes, hchanges, hstart⟩⟩ := Flush.start_cases s
  · simp only [PagedMap.endWriting, hstart] at hrun
    cases hrun
    rcases Flush.done_of_start hstart with hr | hr
    · cases hr
      cases he
    · cases hr
  · have h1 : Rests s1 line := h.collecting ht.remains ht.archive ht.table (by rw [ht.host]) ht.nothing
    simp only [PagedMap.endWriting, hstart] at hrun
    have hindex := Flush.hasIndex_of_run rfl h1.located.shelved.writer hrun he
    have hcollected : Collected s1.self.dimensions changes :=
      ht.remains.dimensions ▸ h.collected changes hchanges
    have hbegins : Composing s1 changes s1 ⟨line, [], none, [], none, []⟩ []
        ⟨changes, changes.length, Bytes.zeros pageSize, .opening⟩ :=
      ⟨h1.located, rfl, rfl, .nothing s1, Bytes.length_zeros _, .opening rfl rfl⟩
    rw [Location.maxSegments_eq] at hindex
    obtain ⟨r, t', k, past, written, hgo, hkeeps, hdone⟩ := hbegins.run hcollected (by
      change s1.self.archive.nextIndex.toNat + 1 < 0x100000000
      omega)
    rw [hrun] at hgo
    cases hgo
    exact ⟨changes, s1, k, past, hchanges, ht, ht.remains.trans hkeeps.kin.remains,
      hkeeps.kin.changes.trans ht.changes, hdone⟩

/--
A session that fails because of the page of a bucket has written some other buckets as a whole and
changed nothing else, and all of it stays when the map is closed and opened again.
-/
theorem Weathers.failed_session_divides (h : Weathers K directory name mapSize s) {e : MapError}
    (hrun : PagedMap.endWriting s = (.error e, t)) {i : Int} (hi : e.bucket? = some i) :
    ∃ changes bucket written, s.self.changes = some changes ∧ i = (bucket : Nat) ∧
      Divides s t changes bucket written ∧
      (SegmentName.Plain name → ∃ u, PagedMap.reopen t = (.ok (), u) ∧
        ∀ (key : K) (notFound : Int64),
          (PagedMap.find key notFound u).1 = (PagedMap.find key notFound t).1) := by
  obtain ⟨hname, line, hrests⟩ := h.rests
  obtain ⟨changes, s1, k, past, hchanges, ht, hremains, hnone, hdone⟩ :=
    hrests.composed hrun (by rw [hi]; rfl)
  obtain ⟨b, bs, rest, rfl, he⟩ := hdone.failed e rfl i hi
  refine ⟨changes, b, past.map Prod.fst, hchanges, rfl,
    hdone.divides ht hrests.located.shaped (hrests.collected _ hchanges) hnone he, fun hn => ?_⟩
  obtain ⟨u, hgo, -, hpages⟩ := (hdone.located.idle hdone.current hdone.old hdone.moves).reopen_samePage
    (hrests.configured.remains hremains) (hremains.name.trans hname ▸ hn)
  exact ⟨u, hgo, fun key notFound => (hpages _ (hdone.located.place_lt key)).find_eq notFound⟩

end Sessions

def Flush.faulty? : Except MapError Unit → Option Int
  | .error e => e.bucket?
  | .ok () => none

theorem Flush.of_faulty? {r : Except MapError Unit} {i : Int} (h : faulty? r = some i) :
    ∃ e, r = .error e ∧ e.bucket? = some i := by
  cases r with
  | error e => exact ⟨e, rfl, h⟩
  | ok => cases h

theorem exists_weathers_damaged (name : String) (acts : List (PagedMap.Action UInt64))
    (test : MapState UInt64 → Bool) (h : (PagedMap.scenario UInt64 name 100 acts).any fun s =>
      s.self.archive.completed.any fun t => decide (t.InData s.host.disk 12 1) &&
        test { s with host := { s.host with disk := s.host.disk.changed (.write t.slot 12 [0xFF]) } }) :
    ∃ s, Weathers UInt64 [] name 100 s ∧ test s := by
  obtain ⟨s, hs, hany⟩ := (Option.any_eq_true ..).mp h
  obtain ⟨t, ht, hboth⟩ := List.any_eq_true.mp hany
  obtain ⟨hin, htest⟩ := Bool.and_eq_true_iff.mp hboth
  have hin : t.InData s.host.disk 12 ([0xFF] : Bytes).length := of_decide_eq_true hin
  exact ⟨_, (weathers_of_scenario hs).damaged ht hin, htest⟩

/-- The page of key 7 is damaged; the session writes key 8 first, and then it fails. -/
theorem failed_session_divides_after_mismatch :
    ∃ (s t : MapState UInt64) (e : MapError) (i : Int), Weathers UInt64 [] "x" 100 s ∧
      PagedMap.endWriting s = (.error e, t) ∧ e.bucket? = some i ∧
      (PagedMap.find 8 0 s).1.toOption = some 0 ∧ (PagedMap.find 8 0 t).1.toOption = some 2 ∧
      ∃ changes bucket written, s.self.changes = some changes ∧ i = (bucket : Nat) ∧
        Divides s t changes bucket written ∧
        ∃ u, PagedMap.reopen t = (.ok (), u) ∧ ∀ (key : UInt64) (notFound : Int64),
          (PagedMap.find key notFound u).1 = (PagedMap.find key notFound t).1 := by
  obtain ⟨s, hs, htest⟩ := exists_weathers_damaged "x"
    [.start, .put 7 1, .finish, .start, .put 8 2, .put 7 3]
    (fun s => (Flush.faulty? (PagedMap.endWriting s).1).isSome &&
      decide ((PagedMap.find 8 0 s).1.toOption = some 0) &&
      decide ((PagedMap.find 8 0 (PagedMap.endWriting s).2).1.toOption = some 2)) (by decide +kernel)
  simp only [Bool.and_eq_true, decide_eq_true_eq, Option.isSome_iff_exists] at htest
  obtain ⟨⟨⟨i, hfaulty⟩, hbefore⟩, hafter⟩ := htest
  obtain ⟨e, he, hi⟩ := Flush.of_faulty? hfaulty
  have hrun : PagedMap.endWriting s = (.error e, (PagedMap.endWriting s).2) := Prod.ext he rfl
  obtain ⟨changes, bucket, written, hchanges, hbucket, hdivides, hreopen⟩ :=
    Weathers.failed_session_divides hs hrun hi
  exact ⟨s, _, e, i, hs, hrun, hi, hbefore, hafter, changes, bucket, written, hchanges, hbucket,
    hdivides, hreopen (by decide)⟩

/-- Under a name with a separator closing and opening the map after such a session loses key 8. -/
theorem failed_session_loses_separated_name :
    ∃ (s t u : MapState UInt64) (e : MapError) (i : Int), Weathers UInt64 [] "./x" 100 s ∧
      PagedMap.endWriting s = (.error e, t) ∧ e.bucket? = some i ∧ PagedMap.reopen t = (.ok (), u) ∧
      (PagedMap.find 8 0 t).1.toOption = some 2 ∧ (PagedMap.find 8 0 u).1.toOption = some 0 := by
  obtain ⟨s, hs, htest⟩ := exists_weathers_damaged "./x"
    [.start, .put 7 1, .finish, .start, .put 8 2, .put 7 3]
    (fun s => (Flush.faulty? (PagedMap.endWriting s).1).isSome &&
      (PagedMap.reopen (PagedMap.endWriting s).2).1.toOption.isSome &&
      decide ((PagedMap.find 8 0 (PagedMap.endWriting s).2).1.toOption = some 2) &&
      decide ((PagedMap.find 8 0 (PagedMap.reopen (PagedMap.endWriting s).2).2).1.toOption = some 0))
    (by decide +kernel)
  simp only [Bool.and_eq_true, decide_eq_true_eq, Option.isSome_iff_exists] at htest
  obtain ⟨⟨⟨⟨i, hfaulty⟩, hreopened⟩, hbefore⟩, hafter⟩ := htest
  obtain ⟨e, he, hi⟩ := Flush.of_faulty? hfaulty
  have hrun : PagedMap.endWriting s = (.error e, (PagedMap.endWriting s).2) := Prod.ext he rfl
  rcases hopen : PagedMap.reopen (PagedMap.endWriting s).2 with ⟨r, u⟩
  rw [hopen] at hreopened hafter
  cases r with
  | error e => obtain ⟨_, h⟩ := hreopened; cases h
  | ok => exact ⟨s, _, u, e, i, hs, hrun, hi, hopen, hbefore, hafter⟩

end MeteredStorage
