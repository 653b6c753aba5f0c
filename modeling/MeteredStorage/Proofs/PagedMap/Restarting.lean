import MeteredStorage.Proofs.PagedMap.Coursing
import MeteredStorage.Proofs.PagedMap.Reaching

namespace MeteredStorage

variable {K : Type} [FixedKey K]

/-- The counter of indices, which has 32 bits, does not come to its end with the next segment. -/
def HasIndex (s : MapState K) : Prop := s.self.archive.nextIndex.toNat + 1 < 0x100000000

theorem HasIndices.hasIndex {K : Type} {s : MapState K} (h : HasIndices s) : HasIndex s := h.no_wrap

variable {directory : Path} {name : String} {mapSize : UInt64} {s s' : MapState K} {line : List Volume}
  {k : Stock} {base versions : Versions K}

variable [DecidableEq K]

namespace Course

inductive Later (c : Course K) : Course K → Prop
  | same : Later c c
  | moved {c' : Course K} (h : Later c c') (hi : HasIndex c'.map) (move : Move K) :
      Later c (c'.step move)

/-- What becomes of a map that was opened in an empty directory, also when the power has been lost. -/
inductive Arises (K : Type) [DecidableEq K] [FixedKey K] (directory : Path) (name : String)
    (mapSize : UInt64) : Course K → Prop
  | opened {host host' : Host} {m : PagedMap K} (hd : host.disk.Vacant directory)
      (h : PagedMap.init K directory name mapSize host = (.ok m, host')) :
      Arises K directory name mapSize ⟨⟨m, host'⟩, .waiting, .waiting⟩
  | moved {c : Course K} (hc : Arises K directory name mapSize c) (hi : HasIndex c.map)
      (move : Move K) : Arises K directory name mapSize (c.step move)
  | shuffled {c : Course K} {changes changes' : ChangeSet K} (hc : Arises K directory name mapSize c)
      (hs : c.map.self.changes = some changes) (h : ChangeSet.Rearranged changes changes') :
      Arises K directory name mapSize
        { c with map := c.map.update fun m => { m with changes := some changes' } }
  | renewed {c : Course K} (hc : Arises K directory name mapSize c) (hw : c.writer.active = false) :
      Arises K directory name mapSize { c with writer := .waiting }
  | rested {c : Course K} (hc : Arises K directory name mapSize c) (hm : c.merge.active = false) :
      Arises K directory name mapSize { c with merge := .waiting }
  | reopened {c : Course K} {s : MapState K} {r : Except MapError Unit}
      (hc : Arises K directory name mapSize c) (hw : c.writer.active = false)
      (hm : c.merge.active = false) (h : PagedMap.reopen c.map = (r, s)) :
      Arises K directory name mapSize ⟨s, .waiting, .waiting⟩
  | restarted {c c' : Course K} {host host' : Host} {m : PagedMap K}
      (hc : Arises K directory name mapSize c) (hl : c.Later c') (hn : SegmentName.Plain name)
      (hd : c.disk.Leaves c'.disk host.disk)
      (h : PagedMap.init K directory name mapSize host = (.ok m, host')) :
      Arises K directory name mapSize ⟨⟨m, host'⟩, .waiting, .waiting⟩

theorem Later.step {c c' : Course K} (hi : HasIndex c.map) (move : Move K)
    (h : c.step move = c') : c.Later c' :=
  h ▸ .moved .same hi move

theorem Later.trans {c c' c'' : Course K} (h : Later c c') (h' : Later c' c'') : Later c c'' := by
  induction h' with
  | same => exact h
  | moved _ hi move ih => exact .moved ih hi move

theorem Arises.later {c c' : Course K} (h : Arises K directory name mapSize c) (hl : c.Later c') :
    Arises K directory name mapSize c' := by
  induction hl with
  | same => exact h
  | moved _ hi move ih => exact .moved ih hi move

end Course

variable {c c' : Course K}

section Operations

variable {merge : MergeStatus} {writer : FlushStatus K}

/-- The steps of a flush that nobody interrupts are moves. -/
theorem Writing.later [LawfulKey K] {changes past : ChangeSet K} {counted : Nat} {f : Flush K}
    (hw : Writing base changes counted s k versions past f) (h : Indexed s k versions)
    (hi : s.self.archive.nextIndex.toNat + f.wants + 1 < 0x100000000) :
    Course.Later ⟨s, .running f, merge⟩ ⟨(f.run s).2, .finished (f.run s).1, merge⟩ := by
  have hindex : HasIndex s := Nat.lt_of_le_of_lt (by omega) hi
  induction f, s using Flush.run.induct generalizing k versions past with
  | case1 f s r s' hstep =>
      rw [Flush.run_of_done hstep]
      refine .step hindex .write ?_
      simp only [Course.step, hstep]
      rfl
  | case2 f s f' s' hstep ih =>
      obtain ⟨p, s1, hgo, ⟨k', versions', past', written, hspares, -, -, -, -, hwrites⟩, -⟩ :=
        hw.step h (by omega)
      rw [hstep] at hgo
      cases hgo
      cases hwrites with
      | running hw' =>
          -- An index that a step has taken is not wanted again.
          have hnext : s'.self.archive.nextIndex.toNat + f'.wants + 1 < 0x100000000 := by
            rw [hspares.kin.follows.nextIndex, Flush.wants_step hstep]
            exact hi
          rw [Flush.run_of_running hstep]
          refine .trans (.step hindex .write ?_)
            (ih hw' hspares.indexed hnext (Nat.lt_of_le_of_lt (by omega) hnext))
          simp only [Course.step, hstep]
          rfl

theorem Moving.later {m : MapMerge} (hm : Moving k m) (h : Located s k) (hi : HasIndex s) :
    Course.Later ⟨s, writer, .running m⟩ ⟨(m.run s).2, writer, .finished (m.run s).1⟩ := by
  induction m, s using MapMerge.run.induct generalizing k with
  | case1 m s r s' hstep =>
      rw [MapMerge.run_of_done hstep]
      refine .step hi (.merge 0) ?_
      simp only [Course.step, hstep]
      rfl
  | case2 m s m' s' hstep ih =>
      obtain ⟨p, s1, k', hgo, hkeeps, -, -, -, hp, -⟩ := hm.step h
      rw [hstep] at hgo
      cases hgo
      cases hp with
      | running hm' =>
          rw [MapMerge.run_of_running hstep]
          refine .trans (.step hi (.merge 0) ?_) (ih hm' hkeeps.located ?_)
          · simp only [Course.step, hstep]
            rfl
          · rw [HasIndex, hkeeps.kin.follows.nextIndex]
            exact hi

/-- Ending a session without a pause is a course of moves. -/
theorem Steady.later_endWriting [LawfulKey K] (h : Steady base c k versions) (hw : c.writer = .waiting)
    (hi : HasIndices c.map) : c.Later ⟨(PagedMap.endWriting c.map).2,
      .finished (PagedMap.endWriting c.map).1, c.merge⟩ := by
  obtain ⟨k', versions', h', -⟩ := h.step_write hi.no_wrap
  have hbegun : c.Later (c.step .write) := .moved .same hi.hasIndex .write
  obtain ⟨t, ht, ⟨r, hstart, -⟩ | ⟨changes, -, hstart⟩⟩ := Flush.start_cases c.map
  · simp only [Course.step, hw, hstart] at hbegun
    simp only [PagedMap.endWriting, hstart]
    exact hbegun
  · simp only [Course.step, hw, hstart] at h' hbegun
    simp only [PagedMap.endWriting, hstart]
    refine hbegun.trans ?_
    cases h'.writer with
    | running hw' _ =>
        refine hw'.later h'.indexed ?_
        rw [ht.archive]
        exact hi

theorem Steady.later_merge [LawfulKey K] (h : Steady base c k versions)
    (hm : c.merge.active = false) (hi : HasIndices c.map) (limit : UInt64) : c.Later ⟨(PagedMap.merge limit c.map).2, c.writer,
      .finished (PagedMap.merge limit c.map).1⟩ := by
  have hchosen := (h.choose hm limit).1
  have hbegun : c.Later (c.step (.merge limit)) := .moved .same hi.hasIndex (.merge limit)
  rw [Course.step_choose hm] at hchosen hbegun
  simp only [PagedMap.merge, MapMerge.start]
  split at hbegun
  · rename_i hfew
    rw [if_pos hfew]
    exact hbegun
  · rename_i hfew
    rw [if_neg hfew] at hchosen ⊢
    cases hchosen.merge with
    | chosen hold hmoves hfiles =>
        obtain ⟨p, s', k', hgo, hbrings, -, -, -, -, hp, -⟩ :=
          hchosen.indexed.prepare_run hold hmoves hi.no_wrap hfiles
        have hprepared : c.Later ⟨s', c.writer, .ofProgress p⟩ :=
          hbegun.trans (.step hi.hasIndex (.merge limit) (by simp only [Course.step, hgo]))
        rw [hgo]
        refine hprepared.trans ?_
        cases hp with
        | done => exact .same
        | running hm' =>
            refine hm'.later hbrings.located ?_
            rw [HasIndex, hbrings.kin.follows.nextIndex]
            exact hi

end Operations

theorem Idle.steady (h : Idle s line versions) :
    Steady versions ⟨s, .waiting, .waiting⟩ ⟨line, [], none, [], none, []⟩ versions :=
  ⟨h.configured, h.indexed, h.collected, .waiting rfl rfl, .waiting rfl rfl⟩

namespace Steady

theorem current_eq (h : Steady base c k versions) (hw : c.writer.active = false) : k.current = none := by
  have hwriter := h.writer
  generalize c.writer = writer at hw hwriter
  cases hwriter with
  | waiting hc => exact hc
  | running => cases hw
  | finished hc => exact hc

theorem versions_eq (h : Steady base c k versions) (hw : c.writer = .waiting) : versions = base := by
  have hwriter := h.writer
  rw [hw] at hwriter
  cases hwriter with
  | waiting _ hv => exact hv

theorem renewed (h : Steady base c k versions) (hw : c.writer.active = false) :
    Steady versions { c with writer := .waiting } k versions :=
  ⟨h.configured, h.indexed, h.collected, .waiting (h.current_eq hw) rfl, h.merge⟩

theorem rested (h : Steady base c k versions) (hm : c.merge.active = false) :
    Steady base { c with merge := .waiting } k versions := by
  obtain ⟨hold, hmoves⟩ := h.merge.over hm
  exact ⟨h.configured, h.indexed, h.collected, h.writer, .waiting hold hmoves⟩

theorem idle (h : Steady base c k versions) (hw : c.writer.active = false)
    (hm : c.merge.active = false) : Idle c.map k.line versions := by
  obtain ⟨hold, hmoves⟩ := h.merge.over hm
  exact ⟨h.configured, h.indexed.idle (h.current_eq hw) hold hmoves, h.collected⟩

theorem later [LawfulKey K] (h : Steady base c k versions) (hl : c.Later c') :
    ∃ k' versions', Steady base c' k' versions' ∧ Leads base c versions c' versions' := by
  induction hl with
  | same => exact ⟨k, versions, h, h.unchanged⟩
  | moved _ hi move ih =>
      obtain ⟨k1, versions1, h1, hleads⟩ := ih
      obtain ⟨k2, versions2, h2, hleads'⟩ := h1.step hi move
      exact ⟨k2, versions2, h2, hleads.trans hleads'⟩

end Steady

variable [LawfulKey K]

theorem Course.Arises.steady (h : Arises K directory name mapSize c) :
    Belongs directory name mapSize c.map ∧ ∃ base k versions, Steady base c k versions := by
  induction h with
  | opened hd hinit =>
      obtain ⟨a, d, rfl, hdimensions, hdir, hname, -, hs⟩ := PagedMap.init_of_vacant hd hinit
      have hidle : Idle _ [] _ := .rebuilt hname hdimensions hs (.nothing (K := K) d)
      exact ⟨⟨hdir, hname, hdimensions⟩, _, _, _, hidle.steady⟩
  | moved _ hi move ih =>
      obtain ⟨hbelongs, base, k, versions, h⟩ := ih
      obtain ⟨k', versions', h', hleads⟩ := h.step hi move
      exact ⟨hbelongs.remains hleads.remains, base, k', versions', h'⟩
  | @shuffled c changes changes' _ hs hr ih =>
      obtain ⟨hbelongs, base, k, versions, h⟩ := ih
      have hremains : Remains c.map (c.map.update fun m => { m with changes := some changes' }) :=
        ⟨rfl, rfl, rfl, rfl⟩
      refine ⟨hbelongs.remains hremains, base, k, versions, (h.collecting hremains rfl rfl rfl
        (fun _ hc => ?_) (h.writer.congr h.indexed rfl rfl rfl) fun _ hw => hw).1⟩
      cases hc
      exact (h.collected _ hs).rearranged hr
  | renewed _ hw ih =>
      obtain ⟨hbelongs, base, k, versions, h⟩ := ih
      exact ⟨hbelongs, versions, k, versions, h.renewed hw⟩
  | rested _ hm ih =>
      obtain ⟨hbelongs, base, k, versions, h⟩ := ih
      exact ⟨hbelongs, base, k, versions, h.rested hm⟩
  | @reopened c s r _ hw hm hrun ih =>
      obtain ⟨hbelongs, base, k, versions, h⟩ := ih
      have hidle := h.idle hw hm
      by_cases hn : SegmentName.Plain c.map.self.name
      · obtain ⟨s1, line', hgo, h1, hremains, -⟩ := hidle.reopen_run hn
        rw [hgo] at hrun
        cases hrun
        exact ⟨hbelongs.remains hremains, _, _, _, h1.steady⟩
      · obtain ⟨s1, line', hgo, h1, hremains, -⟩ := hidle.reopen_foreign hn
        rw [hgo] at hrun
        cases hrun
        exact ⟨hbelongs.remains hremains, _, _, _, h1.steady⟩
  | restarted _ hl hn hd hrun ih =>
      obtain ⟨hbelongs, base, k, versions, h⟩ := ih
      obtain ⟨k', versions', h', hleads⟩ := h.later hl
      -- Which versions have been found does not matter here: the map is at rest with them.
      obtain ⟨m, host', line, versions'', hgo, -, hbelongs', hidle, -⟩ :=
        (hleads.left.leaves _ hd).init_run (hbelongs.remains hleads.remains) hn
      rw [hrun] at hgo
      cases hgo
      exact ⟨hbelongs', _, _, _, hidle.steady⟩

section Scenario

theorem Course.Arises.acted (h : Arises K directory name mapSize ⟨s, .waiting, .waiting⟩)
    (hi : HasIndices s) (act : PagedMap.Action K) :
    Arises K directory name mapSize ⟨(act.run s).2, .waiting, .waiting⟩ := by
  obtain ⟨-, base, k, versions, hsteady⟩ := h.steady
  cases act with
  | start => exact h.moved hi.hasIndex .start
  | put key value => exact h.moved hi.hasIndex (.put key value)
  | finish => exact (h.later (hsteady.later_endWriting rfl hi)).renewed rfl
  | merge limit =>
      rw [PagedMap.Action.run, Task.snd_ignore]
      exact (h.later (hsteady.later_merge rfl hi limit)).rested rfl
  | find key notFound =>
      rw [PagedMap.Action.run, Task.snd_ignore]
      exact h.moved hi.hasIndex (.find key notFound)
  | reopen => exact h.reopened rfl rfl rfl
  | wait clock => exact h.moved hi.hasIndex (.wait clock)

theorem Course.arises_of_scenario {acts : List (PagedMap.Action K)}
    (hs : PagedMap.scenario K name mapSize acts = some s) :
    Arises K [] name mapSize ⟨s, .waiting, .waiting⟩ := by
  refine PagedMap.of_scenario (motive := fun _ s => Arises K [] name mapSize ⟨s, .waiting, .waiting⟩)
    hs .opened fun {_ s act s'} h hi hgo => ?_
  have hacted := h.acted hi act
  rw [hgo] at hacted
  exact hacted

def Course.play : List (Course.Move K) → Course K → Option (Course K)
  | [], c => some c
  | move :: moves, c =>
    if c.map.self.archive.nextIndex.toNat + 1 < 0x100000000 then play moves (c.step move) else none

omit [LawfulKey K] in
theorem Course.Later.play {moves : List (Course.Move K)} (hp : c.play moves = some c') : c.Later c' := by
  induction moves generalizing c with
  | nil =>
      cases hp
      exact .same
  | cons move moves ih =>
      rw [Course.play] at hp
      split at hp
      · rename_i hi
        exact .trans (.moved .same hi move) (ih hp)
      · cases hp

theorem Course.Arises.leaves (h : Arises K directory name mapSize c) (hl : c.Later c') :
    c.disk.Leaves c'.disk c'.disk := by
  obtain ⟨-, base, k, versions, hsteady⟩ := h.steady
  obtain ⟨k', versions', -, hleads⟩ := hsteady.later hl
  exact hleads.left.becomes.leaves

end Scenario

/--
The power is lost while a session is ended, a merge is made, or both, whatever has been done with the
map before. The map opens again and answers every get as before the session, or, if its end was reached,
as after it. A merge alone makes no difference.
-/
theorem Course.Arises.opens_all_or_nothing (h : Arises K directory name mapSize c)
    (hn : SegmentName.Plain name) (hw : c.writer = .waiting) (hl : c.Later c')
    (hr : ∀ e, c'.writer ≠ .finished (.error e)) {host : Host}
    (hd : c.disk.Leaves c'.disk host.disk) :
    (∃ m host', PagedMap.init K directory name mapSize host = (.ok m, host') ∧
      (Agree c.map ⟨m, host'⟩ ∨ c'.writer = .finished (.ok ()) ∧ Agree c'.map ⟨m, host'⟩)) ∧
    (c'.writer = .waiting → Agree c.map c'.map) := by
  obtain ⟨hbelongs, base, k, versions, hsteady⟩ := h.steady
  obtain rfl := hsteady.versions_eq hw
  obtain ⟨k', versions', hsteady', hleads⟩ := hsteady.later hl
  have hd' := hleads.remains.dimensions
  refine ⟨?_, fun hw' => ?_⟩
  -- Either the segment of the session is not complete and does not count, or the session is over.
  · obtain ⟨m, host', line, shown, hrun, hdimensions, -, hidle, hshown⟩ :=
      (hleads.left.leaves _ hd).init_run (hbelongs.remains hleads.remains) hn
    refine ⟨m, host', hrun, ?_⟩
    rcases hshown with rfl | ⟨⟨r, hover⟩, rfl⟩
    · exact .inl (hsteady.indexed.agree hidle.indexed (hdimensions.trans hd'))
    · refine .inr ⟨?_, hsteady'.indexed.agree hidle.indexed hdimensions⟩
      cases r with
      | ok => exact hover
      | error e => exact absurd hover (hr e)
  · obtain rfl := hsteady'.versions_eq hw'
    exact hsteady.indexed.agree hsteady'.indexed hd'

/-- The power is lost when a session has written one of its two pages. -/
theorem Course.opens_half_written_session :
    ∃ (s : MapState UInt64) (c' : Course UInt64) (m : PagedMap UInt64) (host' : Host),
      Arises UInt64 [] "x" 100 ⟨s, .waiting, .waiting⟩ ∧ Later ⟨s, .waiting, .waiting⟩ c' ∧
        c'.writer.active ∧ c'.map.self.counts.written = s.self.counts.written + 1 ∧
        s.host.disk.Leaves c'.disk c'.map.host.disk ∧
        PagedMap.init UInt64 [] "x" 100 c'.map.host = (.ok m, host') ∧ Agree s ⟨m, host'⟩ := by
  have hwrites : (PagedMap.scenario UInt64 "x" 100 [.start, .put 7 1, .finish, .start, .put 8 2,
      .put 9 3]).any fun s =>
        (Course.play (List.replicate 8 .write) ⟨s, .waiting, .waiting⟩).any fun c' =>
          c'.writer.active &&
            decide (c'.map.self.counts.written = s.self.counts.written + 1) := by
    decide +kernel
  obtain ⟨s, hs, hplayed⟩ := (Option.any_eq_true ..).mp hwrites
  obtain ⟨c', hc, hwritten⟩ := (Option.any_eq_true ..).mp hplayed
  obtain ⟨hactive, hwritten⟩ := Bool.and_eq_true_iff.mp hwritten
  have harises := arises_of_scenario hs
  have hlater := Later.play hc
  have hrunning : ∀ r, c'.writer ≠ .finished r := by
    intro r hr
    rw [hr] at hactive
    cases hactive
  obtain ⟨⟨m, host', hrun, hagree⟩, -⟩ := harises.opens_all_or_nothing (by decide) rfl hlater
    (fun e => hrunning _) (harises.leaves hlater)
  exact ⟨s, c', m, host', harises, hlater, hactive, of_decide_eq_true hwritten,
    harises.leaves hlater, hrun, hagree.resolve_right fun h => hrunning _ h.1⟩

/-- Under a name with a separator the map that is opened then has lost an earlier session. -/
theorem Course.opens_empty_under_separated_name :
    ∃ (s : MapState UInt64) (c' : Course UInt64) (m : PagedMap UInt64) (host' : Host),
      Arises UInt64 [] "./x" 100 ⟨s, .waiting, .waiting⟩ ∧ Later ⟨s, .waiting, .waiting⟩ c' ∧
        c'.writer.active ∧ (PagedMap.endWriting s).1.toOption = some () ∧
        s.host.disk.Leaves c'.disk c'.map.host.disk ∧
        PagedMap.init UInt64 [] "./x" 100 c'.map.host = (.ok m, host') ∧
        ¬ Agree s ⟨m, host'⟩ ∧ ¬ Agree (PagedMap.endWriting s).2 ⟨m, host'⟩ := by
  have hlost : (PagedMap.scenario UInt64 "./x" 100 [.start, .put 7 1, .finish, .start, .put 8 2,
      .put 9 3]).any fun (s : MapState UInt64) =>
        (Course.play (List.replicate 8 .write) ⟨s, .waiting, .waiting⟩).any fun c' =>
          match PagedMap.init UInt64 [] "./x" 100 c'.map.host with
          | (.ok m, host') => c'.writer.active && decide (
              (PagedMap.endWriting s).1.toOption = some () ∧
              (PagedMap.find 7 0 s).1.toOption ≠ (PagedMap.find 7 0 ⟨m, host'⟩).1.toOption ∧
              (PagedMap.find 7 0 (PagedMap.endWriting s).2).1.toOption ≠
                (PagedMap.find 7 0 ⟨m, host'⟩).1.toOption)
          | (.error _, _) => false := by
    decide +kernel
  obtain ⟨s, hs, hplayed⟩ := (Option.any_eq_true ..).mp hlost
  obtain ⟨c', hc, hopened⟩ := (Option.any_eq_true ..).mp hplayed
  have harises := arises_of_scenario hs
  have hlater := Later.play hc
  split at hopened
  · rename_i m host' hrun
    obtain ⟨hactive, hfinds⟩ := Bool.and_eq_true_iff.mp hopened
    obtain ⟨hends, hbefore, hafter⟩ := of_decide_eq_true hfinds
    exact ⟨s, c', m, host', harises, hlater, hactive, hends, harises.leaves hlater, hrun,
      fun h => hbefore (h.toOption_eq 7 0), fun h => hafter (h.toOption_eq 7 0)⟩
  · cases hopened

end MeteredStorage
