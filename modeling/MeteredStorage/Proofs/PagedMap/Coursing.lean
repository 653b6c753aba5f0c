import MeteredStorage.Proofs.PagedMap.Interleaving
import MeteredStorage.Proofs.PagedMap.Recovering

namespace MeteredStorage

structure Course (K : Type) where
  map : MapState K
  writer : FlushStatus K
  merge : MergeStatus

namespace Course

inductive Move (K : Type)
  | start
  | put (key : K) (value : Int64)
  | write
  | merge (limit : UInt64)
  | find (key : K) (notFound : Int64)
  | wait (clock : UInt64)

variable {K : Type} [DecidableEq K] [FixedKey K]

def step (c : Course K) : Move K → Course K
  | .start => { c with map := (PagedMap.startWriting c.map).2 }
  | .put key value => { c with map := (PagedMap.put key value c.map).2 }
  | .write =>
    match c.writer with
    | .waiting =>
      let (p, map) := Flush.start c.map
      ⟨map, .ofProgress p, c.merge⟩
    | .running f =>
      let (p, map) := f.step c.map
      ⟨map, .ofProgress p, c.merge⟩
    | .finished _ => c
  | .merge limit =>
    match c.merge with
    | .chosen files =>
      let (p, map) := MapMerge.prepare files c.map
      ⟨map, c.writer, .ofProgress p⟩
    | .running m =>
      let (p, map) := m.step c.map
      ⟨map, c.writer, .ofProgress p⟩
    | _ =>
      let files := c.map.self.archive.oldest limit
      if files.length < 2 then { c with merge := .finished (.ok 0) }
      else ⟨c.map.report (.mapMergeStarted c.map.self.name files.length), c.writer, .chosen files⟩
  | .find key notFound => { c with map := (PagedMap.find key notFound c.map).2 }
  | .wait clock => { c with map := { c.map with host := { c.map.host with clock := clock } } }

def disk (c : Course K) : Disk := c.map.host.disk

end Course

section Changes

variable {K : Type}

theorem MapState.brief_inArchive {α : Type} {task : ArchiveTask α}
    (h : Task.Brief Hosted.disk task) (s : MapState K) :
    s.host.disk.Brief (s.inArchive task).2.host.disk :=
  h ⟨s.self.archive, s.host⟩

/-- A step of a flush makes one change at most. -/
theorem Flush.brief_step [FixedKey K] (f : Flush K) (s : MapState K) :
    s.host.disk.Brief (f.step s).2.host.disk := by
  unfold step
  split
  · have hbrief := s.brief_inArchive Archive.brief_startWriting
    split <;> simp_all [MapState.update]
  · split <;> exact .refl _
  · rename_i bucket changes location _
    obtain ⟨g, t, hgo, ha, -⟩ := f.readStep_cases bucket changes location s
    simp only [hgo, ha.disk]
    exact .refl _
  · rename_i bucket page _
    have hbrief := s.brief_inArchive (Archive.brief_store ⟨Int64.ofInt bucket, page⟩)
    split <;> simp_all
  · exact .refl _
  · have hbrief := s.brief_inArchive
      (Archive.brief_endWriting 0 (Int64.ofInt s.self.dimensions.buckets))
    simp only [closeStep]
    split <;> exact hbrief

theorem MapMerge.brief_step (m : MapMerge) (s : MapState K) :
    s.host.disk.Brief (m.step s).2.host.disk := by
  unfold step
  split
  · exact .refl _
  · exact .refl _
  · rename_i segment _ _
    have hbrief := s.brief_inArchive (Archive.brief_removeSegment segment)
    split <;> simp_all
  · have hbrief := s.brief_inArchive (Archive.quiet_concludeMerge m.merge).brief
    split <;> simp_all [conclude, MapState.count, MapState.update, MapState.report]

end Changes

variable {K : Type} [FixedKey K] {s s' : MapState K} {k k' : Stock} {base versions versions' : Versions K}
  {c c' : Course K} {merge : MergeStatus} {writer : FlushStatus K} {directory : Path} {name : String}
  {mapSize : UInt64}

def Course.Recovers (c : Course K) (base versions : Versions K) (e : Disk) : Prop :=
  Recoverable c.map.self.dimensions c.map.self.archive.directory c.map.self.archive.name base e ∨
    (∃ r, c.writer = .finished r) ∧ Recoverable c.map.self.dimensions
      c.map.self.archive.directory c.map.self.archive.name versions e

structure Leads (base : Versions K) (c : Course K) (versions : Versions K) (c' : Course K)
    (versions' : Versions K) : Prop where
  remains : Remains c.map c'.map
  ended : ∀ r, c.writer = .finished r → c'.writer = .finished r ∧ versions' = versions
  left : Disk.Within (c'.Recovers base versions') c.disk c'.disk

theorem Course.Recovers.later {e : Disk} (h : c.Recovers base versions e)
    (hr : Remains c.map c'.map)
    (hended : ∀ r, c.writer = .finished r → c'.writer = .finished r ∧ versions' = versions) :
    c'.Recovers base versions' e := by
  rw [Recovers, hr.dimensions, hr.archiveName, hr.directory]
  refine h.imp_right fun ⟨⟨r, hw⟩, he⟩ => ?_
  obtain ⟨hw', rfl⟩ := hended r hw
  exact ⟨⟨r, hw'⟩, he⟩

theorem Course.Recovers.init_run {host : Host} (h : c.Recovers base versions host.disk)
    (hb : Belongs directory name mapSize c.map) (hn : SegmentName.Plain name) :
    ∃ m host' line versions', PagedMap.init K directory name mapSize host = (.ok m, host') ∧
      m.dimensions = c.map.self.dimensions ∧ Belongs directory name mapSize ⟨m, host'⟩ ∧
      Idle ⟨m, host'⟩ line versions' ∧
      (versions' = base ∨ (∃ r, c.writer = .finished r) ∧ versions' = versions) := by
  rw [Recovers, hb.directory, hb.name] at h
  rcases h with h | ⟨hended, h⟩
  · obtain ⟨m, host', line, hrun, hd, hbelongs, hidle⟩ := h.init_run hn hb.dimensions
    exact ⟨m, host', line, base, hrun, hd, hbelongs, hidle, .inl rfl⟩
  · obtain ⟨m, host', line, hrun, hd, hbelongs, hidle⟩ := h.init_run hn hb.dimensions
    exact ⟨m, host', line, versions, hrun, hd, hbelongs, hidle, .inr ⟨hended, rfl⟩⟩

theorem Leads.trans {c'' : Course K} {versions'' : Versions K} (h : Leads base c versions c' versions')
    (h' : Leads base c' versions' c'' versions'') : Leads base c versions c'' versions'' where
  remains := h.remains.trans h'.remains
  ended r hw := by
    obtain ⟨hw', rfl⟩ := h.ended r hw
    exact h'.ended r hw'
  left := (h.left.mono fun _ he => he.later h'.remains h'.ended).trans h'.left

variable [DecidableEq K]

theorem Course.step_choose (hm : c.merge.active = false) (limit : UInt64) :
    c.step (.merge limit) =
      if (c.map.self.archive.oldest limit).length < 2 then { c with merge := .finished (.ok 0) }
      else ⟨c.map.report (.mapMergeStarted c.map.self.name (c.map.self.archive.oldest limit).length),
        c.writer, .chosen (c.map.self.archive.oldest limit)⟩ := by
  cases hmerge : c.merge with
  | waiting => simp only [step, hmerge]
  | finished r => simp only [step, hmerge]
  | chosen =>
      rw [hmerge] at hm
      cases hm
  | running =>
      rw [hmerge] at hm
      cases hm

inductive Ends (base : Versions K) (s : MapState K) (k : Stock) (versions : Versions K) :
    FlushStatus K → Prop
  | waiting (hc : k.current = none) (hv : versions = base) : Ends base s k versions .waiting
  | running {f : Flush K} {changes past : ChangeSet K} {counted : Nat}
      (hw : Writing base changes counted s k versions past f)
      (hl : Shows s.self.dimensions (Volume.allEntries k.line) base) :
      Ends base s k versions (.running f)
  | finished {r : Except MapError Unit} (hc : k.current = none) :
      Ends base s k versions (.finished r)

structure Steady (base : Versions K) (c : Course K) (k : Stock) (versions : Versions K) : Prop where
  configured : Configured c.map
  indexed : Indexed c.map k versions
  collected : ∀ changes, c.map.self.changes = some changes →
    Collected c.map.self.dimensions changes
  writer : Ends base c.map k versions c.writer
  merge : Merges k c.merge

theorem Ends.carried (hw : Ends base s k versions writer) (h : Indexed s k versions) {used : Nat}
    (hb : Brings 0 used s k s' k') (hsame : Rewrites s.self.dimensions.buckets k k')
    (hcurrent : k'.current = k.current) (hfresh : k'.fresh = k.fresh) :
    Ends base s' k' versions writer := by
  cases hw with
  | waiting hc hv => exact .waiting (hcurrent.trans hc) hv
  | running hw hl =>
      refine .running (hw.carried h (h.carries hb hsame.resembles) hcurrent hfresh) ?_
      rw [hb.kin.dimensions]
      exact hl.congr hsame.line
  | finished hc => exact .finished (hcurrent.trans hc)

theorem Ends.congr (hw : Ends base s k versions writer) (h : Indexed s k versions)
    (hd : s'.self.dimensions = s.self.dimensions) (ha : s'.self.archive = s.self.archive)
    (hn : s'.self.counts.written = s.self.counts.written) : Ends base s' k versions writer := by
  cases hw with
  | waiting hc hv => exact .waiting hc hv
  | running hw hl =>
      refine .running (hw.evolves h hd hn (.of_perm ?_ (List.Perm.refl _)) rfl rfl) (hd ▸ hl)
      exact Nat.le_of_eq (by rw [ha])
  | finished hc => exact .finished hc

theorem Ends.line (h : Ends base s k versions c.writer) (hi : Indexed s k versions) :
    Shows s.self.dimensions (Volume.allEntries k.line) base ∨
      (∃ r, c.writer = .finished r) ∧
        Shows s.self.dimensions (Volume.allEntries k.line) versions := by
  generalize c.writer = writer at h
  cases h with
  | waiting hc hv => exact .inl (hv ▸ hi.shows_line hc)
  | running _ hl => exact .inl hl
  | finished hc => exact .inr ⟨⟨_, rfl⟩, hi.shows_line hc⟩

namespace Steady

variable [LawfulKey K]

theorem recovers (h : Steady base c k versions) {e : Disk} (hs : Disk.Same c.disk e) :
    c.Recovers base versions e :=
  (h.writer.line h.indexed).imp (h.indexed.recoverable_same · hs)
    (.imp_right (h.indexed.recoverable_same · hs))

theorem recovers_tentative (h : Steady base c k versions) {e : Disk}
    (ht : Archive.Tentative c.map.self.archive.directory c.map.self.archive.name k.volumes e) :
    c.Recovers base versions e :=
  (h.writer.line h.indexed).imp (h.indexed.recoverable_tentative · ht)
    (.imp_right (h.indexed.recoverable_tentative · ht))

/-- What is left between two such moments can be recovered. -/
theorem leads (h : Steady base c k versions) (h' : Steady base c' k' versions')
    (hr : Remains c.map c'.map)
    (hended : ∀ r, c.writer = .finished r → c'.writer = .finished r ∧ versions' = versions)
    (hleft : Disk.Within (Archive.Halted c.map.self.archive k.volumes c.disk c'.disk)
      c.disk c'.disk) : Leads base c versions c' versions' where
  remains := hr
  ended := hended
  left := by
    refine hleft.mono fun e he => ?_
    rcases he with he | he | he
    · exact (h.recovers he).later hr hended
    · exact (h.recovers_tentative he).later hr hended
    · exact h'.recovers he

theorem leads_of_brief (h : Steady base c k versions) (h' : Steady base c' k' versions')
    (hr : Remains c.map c'.map)
    (hended : ∀ r, c.writer = .finished r → c'.writer = .finished r ∧ versions' = versions)
    (hb : c.disk.Brief c'.disk) : Leads base c versions c' versions' :=
  h.leads h' hr hended (hb.within.mono fun _ => .imp_right .inr)

omit [LawfulKey K] in
theorem carried (h : Steady base c k versions) {used : Nat} (hb : Brings 0 used c.map k s' k')
    (hsame : Rewrites c.map.self.dimensions.buckets k k') (hcurrent : k'.current = k.current)
    (hfresh : k'.fresh = k.fresh) (hmerge : Merges k' merge) :
    Steady base ⟨s', c.writer, merge⟩ k' versions where
  configured := h.configured.remains hb.kin.remains
  indexed := (h.indexed.carries hb hsame.resembles).indexed
  collected := by
    rw [hb.kin.changes, hb.kin.dimensions]
    exact h.collected
  writer := h.writer.carried h.indexed hb hsame hcurrent hfresh
  merge := hmerge

theorem alike (h : Steady base c k versions) (ha : Alike c.map s') (hmerge : Merges k merge) :
    Steady base ⟨s', c.writer, merge⟩ k versions ∧
      Leads base c versions ⟨s', c.writer, merge⟩ versions := by
  have hkeeps := h.indexed.toLocated.alike ha
  have h' := h.carried hkeeps.toBrings (.refl _ k) rfl rfl hmerge
  exact ⟨h', h.leads_of_brief h' hkeeps.kin.remains (fun r hw => ⟨hw, rfl⟩) (.of_eq ha.disk)⟩

theorem collecting (h : Steady base c k versions) (hr : Remains c.map s')
    (ha : s'.self.archive = c.map.self.archive) (ht : s'.self.table = c.map.self.table)
    (hd : s'.host.disk = c.disk)
    (hc : ∀ changes, s'.self.changes = some changes → Collected c.map.self.dimensions changes)
    (hwriter : Ends base s' k versions writer)
    (hended : ∀ r, c.writer = .finished r → writer = .finished r) :
    Steady base ⟨s', writer, c.merge⟩ k versions ∧
      Leads base c versions ⟨s', writer, c.merge⟩ versions := by
  have h' : Steady base ⟨s', writer, c.merge⟩ k versions := by
    exact ⟨h.configured.remains hr, h.indexed.congr hr.dimensions ha ht hd, hr.dimensions.symm ▸ hc,
      hwriter, h.merge⟩
  exact ⟨h', h.leads_of_brief h' hr (fun r hw => ⟨hended r hw, rfl⟩) (.of_eq hd)⟩

theorem unchanged (h : Steady base c k versions) : Leads base c versions c versions :=
  h.leads_of_brief h (.refl _) (fun _ hw => ⟨hw, rfl⟩) (.refl _)

theorem step_write (h : Steady base c k versions)
    (hnext : c.map.self.archive.nextIndex.toNat + 1 < 0x100000000) :
    ∃ k' versions', Steady base (c.step .write) k' versions' ∧
      Leads base c versions (c.step .write) versions' := by
  have hw := h.writer
  cases hwriter : c.writer with
  | waiting =>
      rw [hwriter] at hw
      cases hw with
      | waiting hcurrent hv =>
          obtain ⟨t, ht, ⟨r, hstart, -⟩ | ⟨changes, hchanges, hstart⟩⟩ := Flush.start_cases c.map
          · have hstep : c.step .write = ⟨t, .finished r, c.merge⟩ := by
              simp only [Course.step, hwriter, hstart]
              rfl
            rw [hstep]
            exact ⟨k, versions, h.collecting ht.remains ht.archive ht.table (by rw [ht.host]; rfl)
              ht.nothing (.finished hcurrent) (by simp [hwriter])⟩
          · let f : Flush K := ⟨changes, changes.length, Bytes.zeros pageSize, .opening⟩
            have hstep : c.step .write = ⟨t, .running f, c.merge⟩ := by
              simp only [Course.step, hwriter, hstart]
              rfl
            have hcollected : Collected t.self.dimensions changes := by
              rw [ht.remains.dimensions]
              exact h.collected _ hchanges
            have hbegun : Writing base changes t.self.counts.written t k versions [] f :=
              ⟨hv, rfl, Bytes.length_zeros _, hcollected, .opening hcurrent rfl⟩
            have hline : Shows t.self.dimensions (Volume.allEntries k.line) base := by
              rw [ht.remains.dimensions]
              exact hv ▸ h.indexed.shows_line hcurrent
            rw [hstep]
            exact ⟨k, versions, h.collecting ht.remains ht.archive ht.table (by rw [ht.host]; rfl)
              ht.nothing (.running hbegun hline) (by simp [hwriter])⟩
  | running f =>
      rw [hwriter] at hw
      cases hw with
      | running hw hl =>
          obtain ⟨p, s', hgo, ⟨k', versions', past', written, hspares, hold, hmoves, hline, hkept,
            hwrites⟩, -⟩ := hw.step h.indexed (by have := f.wants_le; omega)
          have hstep : c.step .write = ⟨s', .ofProgress p, c.merge⟩ := by
            simp only [Course.step, hwriter, hgo]
          have hbrief := f.brief_step c.map
          rw [hgo] at hbrief
          have h' : Steady base ⟨s', .ofProgress p, c.merge⟩ k' versions' := by
            refine ⟨h.configured.remains hspares.kin.remains, hspares.indexed, ?_, ?_,
              h.merge.congr hold hmoves hline⟩
            · rw [hspares.kin.changes, hspares.kin.dimensions]
              exact h.collected
            · cases hwrites with
              | running hw' =>
                  -- The segment of the session joins the line only when it is complete.
                  refine .running hw' ?_
                  rw [hspares.kin.dimensions, hkept _ rfl]
                  exact hl
              | done hdone => exact .finished hdone.idle
          rw [hstep]
          exact ⟨k', versions', h', h.leads_of_brief h' hspares.kin.remains (by simp [hwriter]) hbrief⟩
  | finished r =>
      have hstep : c.step .write = c := by
        simp only [Course.step, hwriter]
      rw [hstep]
      exact ⟨k, versions, h, h.unchanged⟩

theorem choose (h : Steady base c k versions) (hm : c.merge.active = false) (limit : UInt64) :
    Steady base (c.step (.merge limit)) k versions ∧
      Leads base c versions (c.step (.merge limit)) versions := by
  obtain ⟨hold, hmoves⟩ := h.merge.over hm
  rw [Course.step_choose hm]
  split
  · exact h.alike (.refl c.map) (.finished hold hmoves)
  · rename_i hfew
    exact h.alike (.report c.map _) (.chosen hold hmoves (h.indexed.chosen hold hfew))

theorem step_merge (h : Steady base c k versions)
    (hnext : c.map.self.archive.nextIndex.toNat + 1 < 0x100000000) (limit : UInt64) :
    ∃ k', Steady base (c.step (.merge limit)) k' versions ∧
      Leads base c versions (c.step (.merge limit)) versions := by
  have hm := h.merge
  cases hmerge : c.merge with
  | waiting => exact ⟨k, h.choose (by rw [hmerge]; rfl) limit⟩
  | finished r => exact ⟨k, h.choose (by rw [hmerge]; rfl) limit⟩
  | chosen files =>
      rw [hmerge] at hm
      cases hm with
      | chosen hold hmoves hfiles =>
          obtain ⟨p, s', k', hgo, hbrings, hsame, -, hcurrent, hfresh, hp, -, hleft⟩ :=
            h.indexed.prepare_run hold hmoves hnext hfiles
          have hstep : c.step (.merge limit) = ⟨s', c.writer, .ofProgress p⟩ := by
            simp only [Course.step, hmerge, hgo]
          have h' := h.carried hbrings hsame hcurrent hfresh (.of_moves hp)
          rw [hstep]
          exact ⟨k', h', h.leads h' hbrings.kin.remains (fun _ hw => ⟨hw, rfl⟩) hleft⟩
  | running m =>
      rw [hmerge] at hm
      cases hm with
      | running hm =>
          obtain ⟨p, s', k', hgo, hkeeps, hsame, hcurrent, hfresh, hp, -⟩ :=
            hm.step h.indexed.toLocated
          have hstep : c.step (.merge limit) = ⟨s', c.writer, .ofProgress p⟩ := by
            simp only [Course.step, hmerge, hgo]
          have hbrief := m.brief_step c.map
          rw [hgo] at hbrief
          have h' := h.carried hkeeps.toBrings hsame hcurrent hfresh (.of_moves hp)
          rw [hstep]
          exact ⟨k', h', h.leads_of_brief h' hkeeps.kin.remains (fun _ hw => ⟨hw, rfl⟩) hbrief⟩

theorem step (h : Steady base c k versions)
    (hnext : c.map.self.archive.nextIndex.toNat + 1 < 0x100000000) (move : Course.Move K) :
    ∃ k' versions', Steady base (c.step move) k' versions' ∧
      Leads base c versions (c.step move) versions' := by
  cases move with
  | start =>
      refine ⟨k, versions, ?_⟩
      rcases PagedMap.startWriting_cases c.map with ⟨e, hgo⟩ | hgo
      · simp only [Course.step, hgo]
        exact ⟨h, h.unchanged⟩
      · simp only [Course.step, hgo]
        refine h.collecting ⟨rfl, rfl, rfl, rfl⟩ rfl rfl rfl (fun _ hc => ?_)
          (h.writer.congr h.indexed rfl rfl rfl) fun _ hw => hw
        cases hc
        exact .nil _
  | put key value =>
      refine ⟨k, versions, ?_⟩
      rcases PagedMap.put_cases c.map key value with ⟨-, hgo⟩ | ⟨changes, hchanges, hgo⟩
      · simp only [Course.step, hgo]
        exact ⟨h, h.unchanged⟩
      · simp only [Course.step, hgo]
        refine h.collecting ⟨rfl, rfl, rfl, rfl⟩ rfl rfl rfl (fun _ hc => ?_)
          (h.writer.congr h.indexed rfl rfl rfl) fun _ hw => hw
        cases hc
        exact (h.collected changes hchanges).insert (h.indexed.place_lt key) rfl value
  | write => exact h.step_write hnext
  | merge limit =>
      obtain ⟨k', h'⟩ := h.step_merge hnext limit
      exact ⟨k', versions, h'⟩
  | find key notFound =>
      exact ⟨k, versions, h.alike (PagedMap.alike_find key notFound c.map) h.merge⟩
  | wait clock => exact ⟨k, versions, h.alike (.waited c.map clock) h.merge⟩

end Steady

end MeteredStorage
