import MeteredStorage.Proofs.PagedMap.Mirroring

namespace MeteredStorage

variable {K : Type} [FixedKey K] {origin s s' : MapState K} {k k' : Stock} {sys : System K}
  {line : List Volume}

omit [FixedKey K] in
theorem Filling.congr {buckets : Nat} {f : Flush K} (h : Filling buckets k f)
    (hc : k'.current = k.current) (hf : k'.fresh = k.fresh) : Filling buckets k' f where
  bounded := h.bounded
  poised := by
    have hpoised := h.poised
    generalize f.stage = stage at hpoised
    cases hpoised with
    | opening h1 => exact .opening (hc.trans h1)
    | next h1 h2 => exact .next (hc ▸ h1) (hf.trans h2)
    | reading h1 h2 hb => exact .reading (hc ▸ h1) (hf.trans h2) hb
    | storing h1 h2 hb => exact .storing (hc ▸ h1) (hf.trans h2) hb
    | publishing h1 h2 hr hb => exact .publishing (hc ▸ h1) (hf.trans h2) hr hb
    | closing h1 h2 => exact .closing (hc ▸ h1) (hf.trans h2)

inductive Fares (origin s : MapState K) (k : Stock) : FlushStatus K → Prop
  | waiting (hc : k.current = none) (hs : s.self.changes = origin.self.changes) :
      Fares origin s k .waiting
  | running {f : Flush K} (hs : s.self.changes = none) (hf : Filling s.self.dimensions.buckets k f) :
      Fares origin s k (.running f)
  | finished {r : Except MapError Unit} (hs : s.self.changes = none) (hc : k.current = none) :
      Fares origin s k (.finished r)

omit [FixedKey K] in
theorem Fares.carried {writer : FlushStatus K} {written used : Nat} (hf : Fares origin s k writer)
    (hkin : Kin written used s s') (hcurrent : k'.current = k.current) (hfresh : k'.fresh = k.fresh) :
    Fares origin s' k' writer := by
  cases hf with
  | waiting hc hs => exact .waiting (hcurrent.trans hc) (hkin.changes.trans hs)
  | running hs hf =>
      exact .running (hkin.changes.trans hs) (hkin.dimensions ▸ hf.congr hcurrent hfresh)
  | finished hs hc => exact .finished (hkin.changes.trans hs) (hcurrent.trans hc)

omit [FixedKey K] in
theorem Fares.over {writer : FlushStatus K} (h : Fares origin s k writer)
    (hw : writer.active = false) :
    k.current = none ∧ (s.self.changes = origin.self.changes ∨ s.self.changes = none) := by
  cases h with
  | waiting hc hs => exact ⟨hc, .inl hs⟩
  | running => cases hw
  | finished hs hc => exact ⟨hc, .inr hs⟩

structure Toils (origin : MapState K) (sys : System K) (k : Stock) : Prop where
  located : Located sys.map k
  remains : Remains origin sys.map
  writer : Fares origin sys.map k sys.writer
  merge : Merges k sys.merge
  room : sys.map.self.archive.nextIndex.toNat + sys.writer.wants + sys.merge.wants < 0x100000000

theorem Rests.toils (h : Rests origin line) (hi : HasIndices origin) :
    Toils origin (.start origin) ⟨line, [], none, [], none, []⟩ where
  located := h.located
  remains := .refl origin
  writer := .waiting rfl rfl
  merge := .waiting rfl rfl
  room := hi

namespace Toils

theorem became (h : Toils origin sys k) {writer : FlushStatus K} {merge : MergeStatus}
    {written used : Nat} (hbrings : Brings written used sys.map k s' k')
    (hwriter : Fares origin s' k' writer) (hmerge : Merges k' merge)
    (hwants : used + writer.wants + merge.wants ≤ sys.writer.wants + sys.merge.wants) :
    Toils origin (sys.became s' writer merge) k' where
  located := hbrings.located
  remains := h.remains.trans hbrings.kin.remains
  writer := hwriter
  merge := hmerge
  room := by
    have hr := h.room
    change s'.self.archive.nextIndex.toNat + writer.wants + merge.wants < 0x100000000
    rw [hbrings.kin.follows.nextIndex]
    omega

theorem alike (h : Toils origin sys k) (ha : Alike sys.map s') :
    Toils origin (sys.became s' sys.writer sys.merge) k := by
  have hs := h.located.alike ha
  exact h.became hs.toBrings (h.writer.carried hs.kin rfl rfl) h.merge (by omega)

theorem taken (h : Toils origin sys k) {t : MapState K} {writer : FlushStatus K}
    (ht : Takes sys.map t) (hwriter : Fares origin t k writer)
    (hwants : writer.wants ≤ sys.writer.wants) :
    Toils origin (sys.became t writer sys.merge) k where
  located := h.located.congr ht.remains.dimensions ht.archive ht.table (congrArg Host.disk ht.host)
  remains := h.remains.trans ht.remains
  writer := hwriter
  merge := h.merge
  room := by
    have hr := h.room
    change t.self.archive.nextIndex.toNat + writer.wants + sys.merge.wants < 0x100000000
    rw [ht.archive]
    omega

theorem step_write (h : Toils origin sys k)
    (hc : ∀ changes, origin.self.changes = some changes → Collected origin.self.dimensions changes) :
    ∃ k', Toils origin (sys.step .write) k' := by
  have hw := h.writer
  have hroom := h.room
  cases hwriter : sys.writer with
  | waiting =>
      rw [hwriter] at hw
      have hstep : sys.step .write = sys.became (Flush.start sys.map).2
          (.ofProgress (Flush.start sys.map).1) sys.merge := by
        simp only [System.step, hwriter]
      have hwants : sys.writer.wants = 1 := by rw [hwriter]; rfl
      rw [hstep]
      cases hw with
      | waiting hcurrent hs =>
          obtain ⟨t, ht, ⟨r, hstart, -⟩ | ⟨changes, hchanges, hstart⟩⟩ := Flush.start_cases sys.map
          · rw [hstart]
            exact ⟨k, h.taken ht (.finished ht.changes hcurrent) (Nat.zero_le _)⟩
          · have hcollected := hc _ (hs.symm.trans hchanges)
            rw [← h.remains.dimensions, ← ht.remains.dimensions] at hcollected
            rw [hstart]
            exact ⟨k, h.taken ht (.running ht.changes ⟨hcollected.bounded, .opening hcurrent⟩)
              (Nat.le_of_eq hwants.symm)⟩
  | running f =>
      rw [hwriter] at hw hroom
      cases hw with
      | running hs hf =>
          obtain ⟨p, s', k', written, hgo, hkeeps, hold, hmoves, hline, hfills, -⟩ :=
            hf.step h.located (Nat.lt_of_le_of_lt (Nat.le_add_right _ _) hroom)
          have hstep : sys.step .write = sys.became s' (.ofProgress p) sys.merge := by
            simp only [System.step, hwriter, hgo]
          rw [hstep]
          refine ⟨k', h.became hkeeps.toBrings ?_ (h.merge.congr hold hmoves hline) ?_⟩
          · cases hfills with
            | running hf' => exact .running (hkeeps.kin.changes.trans hs) (hkeeps.kin.dimensions ▸ hf')
            | done hcurrent => exact .finished (hkeeps.kin.changes.trans hs) hcurrent
          · rw [hwriter, FlushStatus.wants_of_step hgo]
            exact Nat.le_refl _
  | finished r =>
      have hstep : sys.step .write = sys := by
        simp only [System.step, hwriter]
      rw [hstep]
      exact ⟨k, h⟩

theorem step_choose (h : Toils origin sys k) (hmerge : sys.merge = .waiting) (limit : UInt64) :
    Toils origin (sys.step (.merge limit)) k := by
  have hm := h.merge
  rw [hmerge] at hm
  cases hm with
  | waiting hold hmoves =>
      by_cases hfew : (sys.map.self.archive.oldest limit).length < 2
      · have hsame := h.located.alike (.refl sys.map)
        have hstep : sys.step (.merge limit) =
            sys.became sys.map sys.writer (.finished (.ok 0)) := by
          simp only [System.step, hmerge, if_pos hfew]
        rw [hstep]
        refine h.became hsame.toBrings h.writer (.finished hold hmoves) ?_
        simp only [MergeStatus.wants]
        omega
      · have hsame := h.located.alike (.report sys.map (.mapMergeStarted sys.map.self.name
          (sys.map.self.archive.oldest limit).length))
        have hstep : sys.step (.merge limit) = sys.became (sys.map.report (.mapMergeStarted
            sys.map.self.name (sys.map.self.archive.oldest limit).length)) sys.writer
            (.chosen (sys.map.self.archive.oldest limit)) := by
          simp only [System.step, hmerge, if_neg hfew]
        rw [hstep]
        refine h.became hsame.toBrings (h.writer.carried hsame.kin rfl rfl)
          (.chosen hold hmoves (h.located.chosen hold hfew)) ?_
        rw [hmerge]
        simp only [MergeStatus.wants]
        omega

theorem step_merge (h : Toils origin sys k) (limit : UInt64) :
    ∃ k', Toils origin (sys.step (.merge limit)) k' := by
  have hm := h.merge
  have hroom := h.room
  cases hmerge : sys.merge with
  | waiting => exact ⟨k, h.step_choose hmerge limit⟩
  | chosen files =>
      rw [hmerge] at hm hroom
      cases hm with
      | chosen hold hmoves hfiles =>
          obtain ⟨p, s', k', hgo, hbrings, -, -, hcurrent, hfresh, hp, -⟩ :=
            h.located.prepare_run hold hmoves (by
              simp only [MergeStatus.wants] at hroom
              omega) hfiles
          have hstep : sys.step (.merge limit) = sys.became s' sys.writer (.ofProgress p) := by
            simp only [System.step, hmerge, hgo]
          rw [hstep]
          refine ⟨k', h.became hbrings (h.writer.carried hbrings.kin hcurrent hfresh) (.of_moves hp) ?_⟩
          rw [hmerge, MergeStatus.wants_ofProgress]
          simp only [MergeStatus.wants]
          omega
  | running m =>
      rw [hmerge] at hm
      cases hm with
      | running hm =>
          obtain ⟨p, s', k', hgo, hkeeps, -, hcurrent, hfresh, hp, -⟩ := hm.step h.located
          have hstep : sys.step (.merge limit) = sys.became s' sys.writer (.ofProgress p) := by
            simp only [System.step, hmerge, hgo]
          rw [hstep]
          refine ⟨k', h.became hkeeps.toBrings (h.writer.carried hkeeps.kin hcurrent hfresh)
            (.of_moves hp) ?_⟩
          rw [hmerge, MergeStatus.wants_ofProgress]
          omega
  | finished r =>
      have hstep : sys.step (.merge limit) = sys := by
        simp only [System.step, hmerge]
      rw [hstep]
      exact ⟨k, h⟩

theorem step (h : Toils origin sys k)
    (hc : ∀ changes, origin.self.changes = some changes → Collected origin.self.dimensions changes)
    (turn : Turn K) : ∃ k', Toils origin (sys.step turn) k' := by
  cases turn with
  | write => exact h.step_write hc
  | merge limit => exact h.step_merge limit
  | get key notFound =>
      have hs := h.alike (.gotten sys.map)
      exact ⟨k, hs.located, hs.remains, hs.writer, hs.merge, hs.room⟩
  | advance i =>
      cases hget : sys.gets[i]? with
      | none =>
          have hstep : sys.step (.advance i) = sys := by
            simp only [System.step, hget]
          rw [hstep]
          exact ⟨k, h⟩
      | some g =>
          have hs := h.alike (g.alike_advance sys.map)
          have hstep : sys.step (.advance i) =
              System.became { sys with gets := sys.gets.set i (g.advance sys.map).1 }
                (g.advance sys.map).2 sys.writer sys.merge := by
            simp only [System.step, hget]
          rw [hstep]
          exact ⟨k, hs.located, hs.remains, hs.writer, hs.merge, hs.room⟩
  | wait clock => exact ⟨k, h.alike (.waited sys.map clock)⟩

theorem run (h : Toils origin sys k)
    (hc : ∀ changes, origin.self.changes = some changes → Collected origin.self.dimensions changes)
    (turns : List (Turn K)) : ∃ k', Toils origin (sys.run turns) k' := by
  induction turns generalizing sys k with
  | nil => exact ⟨k, h⟩
  | cons turn turns ih =>
      obtain ⟨k', h'⟩ := h.step hc turn
      exact ih h'

theorem rests (h : Toils origin sys k) (hr : Rests origin line) (hw : sys.writer.active = false)
    (hm : sys.merge.active = false) : Rests sys.map k.line := by
  obtain ⟨hold, hmoves⟩ := h.merge.over hm
  obtain ⟨hcurrent, hchanges⟩ := h.writer.over hw
  refine ⟨hr.configured.remains h.remains, h.located.idle hcurrent hold hmoves, fun changes hc => ?_⟩
  rw [h.remains.dimensions]
  rcases hchanges with hs | hs
  · exact hr.collected changes (hs ▸ hc)
  · rw [hs] at hc
    cases hc

end Toils

variable [DecidableEq K] {directory : Path} {name : String} {mapSize : UInt64}

/--
The states of a map that was opened in an empty directory. Whatever was done with it may have failed,
sessions, merges and gets may have been interleaved until no session or merge was under way, and bytes
of pages may have been overwritten in between.
-/
inductive Weathers (K : Type) [DecidableEq K] [FixedKey K] (directory : Path) (name : String)
    (mapSize : UInt64) : MapState K → Prop
  | opened {host host' : Host} {m : PagedMap K} (hd : host.disk.Vacant directory)
      (h : PagedMap.init K directory name mapSize host = (.ok m, host')) :
      Weathers K directory name mapSize ⟨m, host'⟩
  | acted {s s' : MapState K} {act : PagedMap.Action K} {r : Except MapError Unit}
      (hr : Weathers K directory name mapSize s) (hi : HasIndices s) (h : act.run s = (r, s')) :
      Weathers K directory name mapSize s'
  | shuffled {s : MapState K} {changes changes' : ChangeSet K}
      (hr : Weathers K directory name mapSize s) (hs : s.self.changes = some changes)
      (h : ChangeSet.Rearranged changes changes') :
      Weathers K directory name mapSize (s.update fun m => { m with changes := some changes' })
  | worked {s : MapState K} (turns : List (Turn K)) (hr : Weathers K directory name mapSize s)
      (hi : HasIndices s) (hw : ((System.start s).run turns).writer.active = false)
      (hm : ((System.start s).run turns).merge.active = false) :
      Weathers K directory name mapSize ((System.start s).run turns).map
  | damaged {s : MapState K} {t : Segment} {offset : Nat} {bytes : Bytes}
      (hr : Weathers K directory name mapSize s) (ht : t ∈ s.self.archive.completed)
      (h : t.InData s.host.disk offset bytes.length) :
      Weathers K directory name mapSize { s with host := { s.host with
        disk := s.host.disk.changed (.write t.slot offset bytes) } }

theorem Weathers.rests (h : Weathers K directory name mapSize s) :
    s.self.name = name ∧ ∃ line, Rests s line := by
  induction h with
  | opened hd hinit =>
      obtain ⟨hname, hidle, -⟩ := idle_of_vacant hd hinit
      exact ⟨hname, [], hidle.configured, hidle.indexed.toLocated, hidle.collected⟩
  | acted _ hi hrun ih =>
      obtain ⟨hname, line, hrests⟩ := ih
      obtain ⟨hremains, hrests', -⟩ := hrests.acted hi.no_wrap hrun
      exact ⟨hremains.name.trans hname, hrests'⟩
  | shuffled _ hs hr ih =>
      obtain ⟨hname, line, hrests⟩ := ih
      exact ⟨hname, line, hrests.shuffled hs hr⟩
  | worked turns _ hi hw hm ih =>
      obtain ⟨hname, line, hrests⟩ := ih
      obtain ⟨k, htoils⟩ := (hrests.toils hi).run hrests.collected turns
      exact ⟨htoils.remains.name.trans hname, k.line, htoils.rests hrests hw hm⟩
  | damaged _ ht hin ih =>
      obtain ⟨hname, line, hrests⟩ := ih
      exact ⟨hname, hrests.damaged ht hin⟩

theorem weathers_of_scenario {acts : List (PagedMap.Action K)}
    (hs : PagedMap.scenario K name mapSize acts = some s) : Weathers K [] name mapSize s :=
  PagedMap.of_scenario (motive := fun _ s => Weathers K [] name mapSize s) hs .opened .acted

end MeteredStorage
