import MeteredStorage.Proofs.PagedMap.Flushing

namespace MeteredStorage

variable {K : Type}

section Loading

variable [FixedKey K] {s s' : MapState K} {k k' : Stock} {versions : Versions K}
  {version : Option (Bindings K)} {b : Nat} {l : Int64}

/-- A location that was loaded from the slot of a bucket when it led to the given version. -/
def Loaded (s : MapState K) (k : Stock) (version : Option (Bindings K)) (bucket : Nat)
    (location : Int64) : Prop :=
  (location = 0 ∧ version = none) ∨
    ∃ bs, version = some bs ∧ bs.length ≤ s.self.dimensions.form.perPage ∧ location ≠ 0 ∧
      Archive.Traced s.self.archive k.volumes location
        (pageRecord s.self.dimensions.form bucket bs)

theorem Indexed.loaded (h : Indexed s k versions) (hb : b < s.self.dimensions.buckets) :
    Loaded s k (versions b) b (s.self.table.get b) := by
  rcases h.slot_cases hb with hzero | ⟨hne, bs, hv, hl, hm, -⟩
  · exact .inl hzero
  · exact .inr ⟨bs, hv, hl, hne, .inl hm⟩

theorem Loaded.evolves (hl : Loaded s k version b l) (h : Indexed s k versions)
    (hd : s'.self.dimensions = s.self.dimensions)
    (he : Archive.Evolves s.self.archive k.volumes s'.self.archive k'.volumes) :
    Loaded s' k' version b l := by
  rcases hl with hzero | ⟨bs, hv, hlength, hne, ht⟩
  · exact .inl hzero
  · refine .inr ⟨bs, hv, ?_, hne, ?_⟩
    · rw [hd]
      exact hlength
    · rw [hd]
      exact ht.evolves h.holds he

end Loading

variable [DecidableEq K]

namespace Versions

def changed (versions : Versions K) (bucket : Nat) (changes : Bindings K) : Bindings K :=
  ChangeSet.setValues changes ((versions bucket).getD [])

def after (versions : Versions K) (changes : ChangeSet K) : Versions K :=
  changes.foldl (fun versions c => versions.set c.1 (versions.changed c.1 c.2)) versions

theorem after_concat (versions : Versions K) (past : ChangeSet K) (bucket : Nat)
    (changes : Bindings K) : versions.after (past ++ [(bucket, changes)]) =
      (versions.after past).set bucket ((versions.after past).changed bucket changes) := by
  rw [after, List.foldl_append]
  rfl

theorem after_of_not_mem {versions : Versions K} {changes : ChangeSet K} {b : Nat}
    (h : b ∉ changes.map Prod.fst) : versions.after changes b = versions b := by
  induction changes generalizing versions with
  | nil => rfl
  | cons c changes ih =>
      rw [List.map_cons, List.mem_cons, not_or] at h
      have hstep : versions.after (c :: changes) b =
          (versions.set c.1 (versions.changed c.1 c.2)).after changes b := rfl
      rw [hstep, ih h.2, set, if_neg h.1]

/-- Each bucket that is changed once shows its own changes. -/
theorem after_of_mem {versions : Versions K} {changes : ChangeSet K}
    (hn : (changes.map Prod.fst).Nodup) {b : Nat} {bs : Bindings K} (h : (b, bs) ∈ changes) :
    versions.after changes b = some (versions.changed b bs) := by
  induction changes generalizing versions with
  | nil => cases h
  | cons c changes ih =>
      rw [List.map_cons, List.nodup_cons] at hn
      have hstep : versions.after (c :: changes) b =
          (versions.set c.1 (versions.changed c.1 c.2)).after changes b := rfl
      rw [hstep]
      rcases List.mem_cons.mp h with rfl | h
      · rw [after_of_not_mem hn.1, set, if_pos rfl]
      · have hne : b ≠ c.1 := fun he => hn.1 (List.mem_map.mpr ⟨(b, bs), h, he⟩)
        rw [ih hn.2 h, changed, set, if_neg hne]
        rfl

end Versions

variable [FixedKey K]

/-- A bucket shows the changes of a session in front of what it has shown before. -/
theorem Versions.lookup_after {d : Dimensions} {changes : ChangeSet K} (hc : Collected d changes)
    (versions : Versions K) (b : Nat) (key : K) :
    ((versions.after changes) b).bind (fun bs => bs.lookup key) =
      (changes.value? b key).or ((versions b).bind fun bs => bs.lookup key) := by
  cases hb : changes.lookup b with
  | none =>
      have hnot : b ∉ changes.map Prod.fst := by
        rw [List.lookup_eq_none_iff] at hb
        intro hm
        obtain ⟨c, hcm, he⟩ := List.mem_map.mp hm
        exact absurd he.symm (bne_iff_ne.mp (hb c hcm))
      rw [after_of_not_mem hnot, ChangeSet.value?, hb]
      rfl
  | some bs =>
      have hm := (lookup_eq_some_iff_mem hc.buckets b bs).mp hb
      rw [after_of_mem hc.buckets hm, changed, Option.bind_some,
        ChangeSet.lookup_setValues (hc.keys _ hm), ChangeSet.value?, hb, Option.getD_some]
      cases versions b <;> rfl

theorem Indexed.resident_changed [LawfulKey K] {s : MapState K} {k : Stock} {versions : Versions K}
    (h : Indexed s k versions) {bucket : Nat} (hb : bucket < s.self.dimensions.buckets)
    {changes : Bindings K}
    (hl : (versions.changed bucket changes).length ≤ s.self.dimensions.form.perPage)
    (hc : Placed s.self.dimensions bucket changes) :
    Resident s.self.dimensions bucket (versions.changed bucket changes) := by
  have hbefore : (((versions bucket).getD []).map Prod.fst).Nodup ∧
      Placed s.self.dimensions bucket ((versions bucket).getD []) := by
    cases hv : versions bucket with
    | none => exact ⟨List.Pairwise.nil, nofun⟩
    | some bs => exact ⟨(h.resident hb hv).keys, (h.resident hb hv).placed⟩
  exact ⟨hb, hl, ChangeSet.nodup_setValues hbefore.1 changes, hbefore.2.setValues hc⟩

inductive Stands (changes : ChangeSet K) (s : MapState K) (k : Stock) (versions : Versions K)
    (past todo : ChangeSet K) : FlushStage K → Prop
  | opening (hc : k.current = none) (he : changes = past ++ todo) :
      Stands changes s k versions past todo .opening
  | next (hc : k.current.isSome) (hf : k.fresh = none) (he : changes = past ++ todo) :
      Stands changes s k versions past todo .next
  | reading {bucket : Nat} {bs : Bindings K} {location : Int64} (hc : k.current.isSome)
      (hf : k.fresh = none) (hb : bucket < s.self.dimensions.buckets)
      (hl : Loaded s k (versions bucket) bucket location) (he : changes = past ++ (bucket, bs) :: todo) :
      Stands changes s k versions past todo (.reading bucket bs location)
  | storing {bucket : Nat} {bs : Bindings K} (hc : k.current.isSome) (hf : k.fresh = none)
      (hb : bucket < s.self.dimensions.buckets)
      (hl : (versions.changed bucket bs).length ≤ s.self.dimensions.form.perPage)
      (he : changes = past ++ (bucket, bs) :: todo) :
      Stands changes s k versions past todo
        (.storing bucket (Page.image s.self.dimensions.form bucket (versions.changed bucket bs)))
  | publishing {bucket : Nat} {bs : Bindings K} {location : Int64} (hc : k.current.isSome)
      (hf : k.fresh = some
        ⟨pageRecord s.self.dimensions.form bucket (versions.changed bucket bs), location⟩)
      (hb : bucket < s.self.dimensions.buckets)
      (hl : (versions.changed bucket bs).length ≤ s.self.dimensions.form.perPage)
      (he : changes = past ++ (bucket, bs) :: todo) :
      Stands changes s k versions past todo (.publishing bucket location)
  | closing {failure : Option MapError} (hc : k.current.isSome) (hf : k.fresh = none)
      (hp : past <+: changes) (he : failure = none → past = changes) :
      Stands changes s k versions past todo (.closing failure)

structure Writing (base : Versions K) (changes : ChangeSet K) (counted : Nat) (s : MapState K)
    (k : Stock) (versions : Versions K) (past : ChangeSet K) (f : Flush K) : Prop where
  versions_eq : versions = base.after past
  counted_eq : s.self.counts.written = counted + past.length
  buffer : f.buffer.length = pageSize
  collected : Collected s.self.dimensions changes
  stands : Stands changes s k versions past f.todo f.stage

structure Written (base : Versions K) (changes : ChangeSet K) (counted : Nat) (s : MapState K)
    (k : Stock) (versions : Versions K) (past : ChangeSet K) (r : Except MapError Unit) : Prop where
  versions_eq : versions = base.after past
  counted_eq : s.self.counts.written = counted + past.length
  idle : k.current = none
  part : past <+: changes
  whole : r = .ok () → past = changes

inductive Writes (base : Versions K) (changes : ChangeSet K) (counted : Nat) (s : MapState K)
    (k : Stock) (versions : Versions K) (past : ChangeSet K) :
    Progress (Flush K) (Except MapError Unit) → Prop
  | running {f : Flush K} (h : Writing base changes counted s k versions past f) :
      Writes base changes counted s k versions past (.running f)
  | done {r : Except MapError Unit} (h : Written base changes counted s k versions past r) :
      Writes base changes counted s k versions past (.done r)

variable {s s' : MapState K} {k k' : Stock} {base versions : Versions K} {changes past : ChangeSet K}
  {counted : Nat} {f : Flush K} {b : Nat}

theorem Writing.evolves (hw : Writing base changes counted s k versions past f)
    (h : Indexed s k versions) (hd : s'.self.dimensions = s.self.dimensions)
    (hn : s'.self.counts.written = s.self.counts.written)
    (hevolves : Archive.Evolves s.self.archive k.volumes s'.self.archive k'.volumes)
    (hcurrent : k'.current = k.current) (hfresh : k'.fresh = k.fresh) :
    Writing base changes counted s' k' versions past f where
  versions_eq := hw.versions_eq
  counted_eq := hn.trans hw.counted_eq
  buffer := hw.buffer
  collected := hd ▸ hw.collected
  stands := by
    have hstands := hw.stands
    obtain ⟨todo, size, buffer, stage⟩ := f
    cases hstands with
    | opening hnone he => exact .opening (hcurrent.trans hnone) he
    | next hsome hf he => exact .next (hcurrent ▸ hsome) (hfresh.trans hf) he
    | reading hsome hf hb hl he =>
        exact .reading (hcurrent ▸ hsome) (hfresh.trans hf) (hd ▸ hb) (hl.evolves h hd hevolves) he
    | storing hsome hf hb hl he =>
        rw [← hd] at *
        exact .storing (hcurrent ▸ hsome) (hfresh.trans hf) hb hl he
    | publishing hsome hf hb hl he =>
        rw [← hd] at *
        exact .publishing (hcurrent ▸ hsome) (hfresh.trans hf) hb hl he
    | closing hsome hf hp he => exact .closing (hcurrent ▸ hsome) (hfresh.trans hf) hp he

theorem Writing.carried {used : Nat} (hw : Writing base changes counted s k versions past f)
    (h : Indexed s k versions) (hc : Carries 0 used s k s' k' versions)
    (hcurrent : k'.current = k.current) (hfresh : k'.fresh = k.fresh) :
    Writing base changes counted s' k' versions past f :=
  hw.evolves h hc.kin.dimensions hc.kin.counted hc.evolves hcurrent hfresh

def Proceeds (base : Versions K) (changes : ChangeSet K) (counted used : Nat) (s : MapState K)
    (k : Stock) (p : Progress (Flush K) (Except MapError Unit)) (s' : MapState K) : Prop :=
  ∃ k' versions' past' written, Spares written used s k s' k' versions' ∧ k'.old = k.old ∧
    k'.moves = k.moves ∧ k.line <+: k'.line ∧ (∀ f, p = .running f → k'.line = k.line) ∧
    Writes base changes counted s' k' versions' past' p

theorem Proceeds.aside {used written : Nat} {p : Progress (Flush K) (Except MapError Unit)}
    {versions' : Versions K} (hspares : Spares written used s k s' k' versions')
    (hold : k'.old = k.old) (hmoves : k'.moves = k.moves) (hline : k'.line = k.line)
    (hwrites : Writes base changes counted s' k' versions' past p) :
    Proceeds base changes counted used s k p s' :=
  ⟨k', versions', past, written, hspares, hold, hmoves, hline ▸ List.prefix_rfl, fun _ _ => hline,
    hwrites⟩

namespace Writing

variable {todo : ChangeSet K} {size : Nat} {buffer : Bytes}

theorem step_opening (h : Indexed s k versions)
    (hw : Writing base changes counted s k versions past ⟨todo, size, buffer, .opening⟩)
    (hnext : s.self.archive.nextIndex.toNat + 1 < 0x100000000) :
    ∃ p s', Flush.step ⟨todo, size, buffer, .opening⟩ s = (p, s') ∧
      Proceeds base changes counted 1 s k p s' ∧
      (s.self.archive.nextIndex.toNat < Location.maxSegments ∨
        p = .done (.error (.archive .indicesExhausted))) := by
  obtain ⟨hversions, hcounted, hbuffer, hcollected, hstands⟩ := hw
  cases hstands with
  | opening hc he =>
      rcases h.opening_cases (f := ⟨todo, size, buffer, .opening⟩) hc hnext rfl with
        ⟨e, s1, hgo, hkeeps, hex⟩ | ⟨v, s1, hgo, hmax, hkeeps, hsame⟩
      · have hidle := h.spares hkeeps (.refl _ k)
        refine ⟨_, s1, hgo, .aside hidle rfl rfl rfl (.done ⟨hversions, hidle.kin.counted.trans hcounted,
          hc, ⟨todo, he.symm⟩, by simp⟩), ?_⟩
        by_cases hlt : s.self.archive.nextIndex.toNat < Location.maxSegments
        · exact .inl hlt
        · exact .inr (by rw [hex.mpr (Nat.le_of_not_lt hlt)])
      · have hspares := h.spares hkeeps hsame
        exact ⟨_, s1, hgo, .aside hspares rfl rfl rfl (.running ⟨hversions,
          hspares.kin.counted.trans hcounted, hbuffer, hspares.kin.dimensions ▸ hcollected,
          .next rfl (h.points.idle hc).2 he⟩), .inl hmax⟩

theorem step_next (h : Indexed s k versions)
    (hw : Writing base changes counted s k versions past ⟨todo, size, buffer, .next⟩) :
    ∃ p s', Flush.step ⟨todo, size, buffer, .next⟩ s = (p, s') ∧
      Proceeds base changes counted 0 s k p s' := by
  obtain ⟨hversions, hcounted, hbuffer, hcollected, hstands⟩ := hw
  have hsame := h.alike (.refl s)
  cases hstands with
  | next hc hf he =>
      cases todo with
      | nil =>
          rw [List.append_nil] at he
          have hgo : Flush.step ⟨[], size, buffer, .next⟩ s =
              (.running ⟨[], size, buffer, .closing none⟩, s) := rfl
          exact ⟨_, _, hgo, .aside hsame rfl rfl rfl (.running ⟨hversions, hcounted, hbuffer, hcollected,
            .closing hc hf (he ▸ List.prefix_rfl) fun _ => he.symm⟩)⟩
      | cons c todo =>
          obtain ⟨bucket, bs⟩ := c
          have hb : bucket < s.self.dimensions.buckets :=
            hcollected.bounded (bucket, bs) (by rw [he]; simp)
          have hgo : Flush.step ⟨(bucket, bs) :: todo, size, buffer, .next⟩ s =
              (.running ⟨todo, size, buffer, .reading bucket bs (s.self.table.get bucket)⟩, s) := rfl
          exact ⟨_, _, hgo, .aside hsame rfl rfl rfl (.running ⟨hversions, hcounted, hbuffer, hcollected,
            .reading hc hf hb (h.loaded hb) he⟩)⟩

theorem compose [LawfulKey K] (h : Indexed s k versions) {bucket : Nat} {bs : Bindings K}
    {location : Int64} (hw : Writing base changes counted s k versions past
      ⟨todo, size, buffer, .reading bucket bs location⟩)
    (hl : ((versions bucket).getD []).length ≤ s.self.dimensions.form.perPage) :
    ∃ f s', Flush.compose ⟨todo, size, buffer, .reading bucket bs location⟩ bucket bs
        (Page.image s.self.dimensions.form bucket ((versions bucket).getD [])) s = (f, s') ∧
      Alike s s' ∧ Writing base changes counted s' k versions past f := by
  obtain ⟨hversions, hcounted, hbuffer, hcollected, hstands⟩ := hw
  cases hstands with
  | reading hc hf hb hloaded he =>
      rcases Flush.applyChanges_image h.shaped.keySize bucket bs hl with ⟨happly, hroom⟩ |
        ⟨e, page, happly, -⟩
      · let page := Page.image s.self.dimensions.form bucket (versions.changed bucket bs)
        refine ⟨⟨todo, size, page, .storing bucket page⟩, s, ?_, .refl s, hversions, hcounted, ?_,
          hcollected, .storing hc hf hb hroom he⟩
        · simp only [Flush.compose, happly, Flush.withStage]
          rfl
        · exact Page.length_image h.shaped.keySize hroom
      · refine ⟨⟨todo, size, buffer, .closing (some e)⟩,
          s.report (.pageOverflow (Page.listing s.self.dimensions.form page) bs.length), ?_, .report s _,
          hversions, hcounted, hbuffer, hcollected, .closing hc hf ⟨_, he.symm⟩ (by simp)⟩
        simp only [Flush.compose, happly, Flush.withStage]

theorem step_reading [LawfulKey K] (h : Indexed s k versions) {bucket : Nat} {bs : Bindings K}
    {location : Int64} (hw : Writing base changes counted s k versions past
      ⟨todo, size, buffer, .reading bucket bs location⟩) :
    ∃ p s', Flush.step ⟨todo, size, buffer, .reading bucket bs location⟩ s = (p, s') ∧
      Proceeds base changes counted 0 s k p s' := by
  have hstands := hw.stands
  cases hstands with
  | reading hc hf hb hloaded he =>
      rcases hloaded with ⟨hzero, hnone⟩ | ⟨old, hversion, hlength, hne, htraced⟩
      · obtain ⟨f, s', hgo, ha, hw'⟩ := hw.compose h (by rw [hnone]; exact Nat.zero_le _)
        rw [hnone, Option.getD_none, ← Page.fresh_eq] at hgo
        refine ⟨.running f, s', ?_, .aside (h.alike ha) rfl rfl rfl (.running hw')⟩
        simp only [Flush.step, Flush.readStep, if_pos hzero, hgo]
      · obtain ⟨s1, ha, hread | hread⟩ := h.readPage_cases hb hlength htraced hw.buffer
        · have hcarried := h.alike ha
          obtain ⟨f, s', hgo, ha', hw'⟩ := (hw.carried h hcarried.toCarries rfl rfl).compose
            hcarried.indexed (by rw [hversion, Option.getD_some, ha.dimensions]; exact hlength)
          rw [hversion, Option.getD_some, ha.dimensions] at hgo
          refine ⟨.running f, s', ?_, .aside (hcarried.trans (hcarried.indexed.alike ha')) rfl rfl rfl
            (.running hw')⟩
          simp only [Flush.step, Flush.readStep, if_neg hne, hread, hgo]
        · have hcarried := h.alike ha
          have hw' := hw.carried h hcarried.toCarries rfl rfl
          refine ⟨.running ⟨todo, size, buffer, .reading bucket bs (s.self.table.get bucket)⟩, s1, ?_,
            .aside hcarried rfl rfl rfl (.running ⟨hw'.versions_eq, hw'.counted_eq, hw'.buffer,
              hw'.collected, ?_⟩)⟩
          · simp only [Flush.step, Flush.readStep, if_neg hne, hread, Flush.withStage]
          · rw [← ha.table]
            rw [← ha.dimensions] at hb
            exact .reading hc hf hb (hcarried.indexed.loaded hb) he

theorem step_storing [LawfulKey K] (h : Indexed s k versions) {bucket : Nat} {page : Bytes}
    (hw : Writing base changes counted s k versions past ⟨todo, size, buffer, .storing bucket page⟩) :
    ∃ p s', Flush.step ⟨todo, size, buffer, .storing bucket page⟩ s = (p, s') ∧
      Proceeds base changes counted 0 s k p s' := by
  obtain ⟨hversions, hcounted, hbuffer, hcollected, hstands⟩ := hw
  cases hstands with
  | @storing bucket bs hc hf hb hl he =>
      rcases h.storing_cases (f := ⟨todo, size, buffer, .storing bucket
        (Page.image s.self.dimensions.form bucket (versions.changed bucket bs))⟩) hf rfl with
        ⟨e, hgo, -⟩ | ⟨v, location, s1, hcurrent, hgo, hkeeps⟩
      · exact ⟨_, s, hgo, .aside (h.alike (.refl s)) rfl rfl rfl (.running ⟨hversions, hcounted, hbuffer,
          hcollected, .closing hc hf ⟨_, he.symm⟩ (by simp)⟩)⟩
      · have hresident := h.resident_changed hb hl (hcollected.placed (bucket, bs) (by rw [he]; simp))
        have hspares := h.stored hcurrent ⟨bucket, _, hresident, rfl⟩ hkeeps
        refine ⟨_, s1, hgo, .aside hspares rfl rfl rfl (.running ⟨hversions,
          hspares.kin.counted.trans hcounted, hbuffer, hspares.kin.dimensions ▸ hcollected, ?_⟩)⟩
        have hd := hspares.kin.dimensions
        rw [← hd] at hb hl
        refine .publishing rfl ?_ hb hl he
        rw [hd]

theorem step_publishing (h : Indexed s k versions) {bucket : Nat} {location : Int64}
    (hw : Writing base changes counted s k versions past
      ⟨todo, size, buffer, .publishing bucket location⟩) :
    ∃ p s', Flush.step ⟨todo, size, buffer, .publishing bucket location⟩ s = (p, s') ∧
      Proceeds base changes counted 0 s k p s' := by
  obtain ⟨hversions, hcounted, hbuffer, hcollected, hstands⟩ := hw
  cases hstands with
  | @publishing bucket bs location hc hf hb hl he =>
      obtain ⟨s1, hgo, hkeeps⟩ := h.publishing_run
        (f := ⟨todo, size, buffer, .publishing bucket location⟩) hb rfl hf rfl
      have hspares := h.published hb hl hkeeps
      have hpast : changes = (past ++ [(bucket, bs)]) ++ todo := by
        rw [he, List.append_assoc]
        rfl
      refine ⟨_, s1, hgo, .aside hspares rfl rfl rfl (.running ⟨?_, ?_, hbuffer,
        hspares.kin.dimensions ▸ hcollected, .next hc rfl hpast⟩)⟩
      · rw [Versions.after_concat, ← hversions]
      · rw [hspares.kin.counted, hcounted, List.length_append, Nat.add_assoc]
        rfl

theorem step_closing (h : Indexed s k versions) {failure : Option MapError}
    (hw : Writing base changes counted s k versions past ⟨todo, size, buffer, .closing failure⟩) :
    ∃ p s', Flush.step ⟨todo, size, buffer, .closing failure⟩ s = (p, s') ∧
      Proceeds base changes counted 0 s k p s' := by
  obtain ⟨hversions, hcounted, hbuffer, hcollected, hstands⟩ := hw
  cases hstands with
  | closing hc hf hp he =>
      obtain ⟨v, hv⟩ := Option.isSome_iff_exists.mp hc
      obtain ⟨footer, s1, hgo, hkeeps, hsame⟩ := h.closing_run
        (f := ⟨todo, size, buffer, .closing failure⟩) hv hf rfl
      have hidle := h.spares hkeeps hsame
      refine ⟨_, s1, hgo, _, versions, past, 0, hidle, rfl, rfl, List.prefix_append .., nofun,
        .done ⟨hversions, hidle.kin.counted.trans hcounted, rfl, hp, fun hr => he ?_⟩⟩
      cases failure with
      | none => rfl
      | some e => cases hr

/-- Every step of a flush keeps the map in order and what the flush has written. -/
theorem step [LawfulKey K] (h : Indexed s k versions)
    (hw : Writing base changes counted s k versions past f)
    (hnext : s.self.archive.nextIndex.toNat + f.wants < 0x100000000) :
    ∃ p s', f.step s = (p, s') ∧ Proceeds base changes counted f.wants s k p s' ∧
      (f.wants = 1 → s.self.archive.nextIndex.toNat < Location.maxSegments ∨
        p = .done (.error (.archive .indicesExhausted))) := by
  obtain ⟨todo, size, buffer, stage⟩ := f
  cases stage with
  | opening =>
      obtain ⟨p, s', hgo, hp, hroom⟩ := hw.step_opening h hnext
      exact ⟨p, s', hgo, hp, fun _ => hroom⟩
  | next =>
      obtain ⟨p, s', hgo, hp⟩ := hw.step_next h
      exact ⟨p, s', hgo, hp, nofun⟩
  | reading bucket bs location =>
      obtain ⟨p, s', hgo, hp⟩ := hw.step_reading h
      exact ⟨p, s', hgo, hp, nofun⟩
  | storing bucket page =>
      obtain ⟨p, s', hgo, hp⟩ := hw.step_storing h
      exact ⟨p, s', hgo, hp, nofun⟩
  | publishing bucket location =>
      obtain ⟨p, s', hgo, hp⟩ := hw.step_publishing h
      exact ⟨p, s', hgo, hp, nofun⟩
  | closing failure =>
      obtain ⟨p, s', hgo, hp⟩ := hw.step_closing h
      exact ⟨p, s', hgo, hp, nofun⟩

end Writing

end MeteredStorage
