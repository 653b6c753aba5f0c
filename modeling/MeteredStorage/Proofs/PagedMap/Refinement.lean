import MeteredStorage.Proofs.PagedMap.Reaching

namespace MeteredStorage

def lastPut {K : Type} [DecidableEq K] (key : K) (puts : List (K × Int64)) : Option Int64 :=
  puts.reverse.lookup key

structure Puts (K : Type) where
  /-- In the sessions that have ended. -/
  ended : List (K × Int64) := []
  /-- In the open session. -/
  pending : List (K × Int64) := []

variable {K : Type}

def Puts.after (h : Puts K) : PagedMap.Action K → Puts K
  | .start => { h with pending := [] }
  | .put key value => { h with pending := h.pending ++ [(key, value)] }
  | .finish => ⟨h.ended ++ h.pending, []⟩
  | .reopen => { h with pending := [] }
  | _ => h

variable [DecidableEq K]

theorem lastPut_append (key : K) (xs ys : List (K × Int64)) :
    lastPut key (xs ++ ys) = (lastPut key ys).or (lastPut key xs) := by
  rw [lastPut, List.reverse_append, List.lookup_append]
  rfl

theorem lastPut_concat (key : K) (puts : List (K × Int64)) (k : K) (value : Int64) :
    lastPut key (puts ++ [(k, value)]) = if key = k then some value else lastPut key puts := by
  rw [lastPut_append]
  by_cases hk : key = k
  · simp [lastPut, hk]
  · simp [lastPut, hk, List.lookup_cons, beq_false_of_ne hk]

variable [FixedKey K]

namespace PagedMap

/--
A run from an empty directory, with what was put. Steps may fail, but no session that is to end and
none for want of an index; a session may keep its changes in any order.
-/
inductive Run (K : Type) [DecidableEq K] [FixedKey K] (directory : Path) (name : String)
    (mapSize : UInt64) : MapState K → Puts K → Prop
  | opened {host host' : Host} {m : PagedMap K} (hd : host.disk.Vacant directory)
      (h : init K directory name mapSize host = (.ok m, host')) :
      Run K directory name mapSize ⟨m, host'⟩ {}
  | succeeded {s s' : MapState K} {h : Puts K} {act : Action K}
      (hr : Run K directory name mapSize s h) (hs : act.run s = (.ok (), s')) :
      Run K directory name mapSize s' (h.after act)
  | failed {s s' : MapState K} {h : Puts K} {act : Action K} {e : MapError}
      (hr : Run K directory name mapSize s h) (hs : act.run s = (.error e, s'))
      (hn : act ≠ .finish) (he : e ≠ .archive .indicesExhausted) :
      Run K directory name mapSize s' h
  | shuffled {s : MapState K} {h : Puts K} {changes changes' : ChangeSet K}
      (hr : Run K directory name mapSize s h) (hs : s.self.changes = some changes)
      (hp : ChangeSet.Rearranged changes changes') :
      Run K directory name mapSize (s.update fun m => { m with changes := some changes' }) h

end PagedMap

structure Recalls (s : MapState K) (h : Puts K) (line : List Volume) (versions : Versions K) :
    Prop where
  idle : Idle s line versions
  roomy : Roomy s
  ended : ∀ key, ((versions (s.self.place key).2).bind fun bs => bs.lookup key) = lastPut key h.ended
  pending : ∀ key, (s.self.changes.getD []).value? (s.self.place key).2 key = lastPut key h.pending

namespace Recalls

variable {s s' : MapState K} {h : Puts K} {line line' : List Volume} {versions : Versions K}
  {e : MapError}

theorem same (hr : Recalls s h line versions) (hi : Idle s' line' versions) (hm : Remains s s')
    (hc : s'.self.changes = s.self.changes) (hroom : Roomy s') : Recalls s' h line' versions where
  idle := hi
  roomy := hroom
  ended key := by rw [place_of_remains hm, hr.ended]
  pending key := by rw [place_of_remains hm, hc, hr.pending]

theorem cleared (hr : Recalls s h line versions) (hi : Idle s' line' versions) (hm : Remains s s')
    (hc : s'.self.changes.getD [] = []) (hroom : Roomy s') :
    Recalls s' { h with pending := [] } line' versions where
  idle := hi
  roomy := hroom
  ended key := by rw [place_of_remains hm, hr.ended]
  pending key := by rw [hc]; rfl

theorem start (hr : Recalls s h line versions) {r : Except MapError Unit}
    (hrun : PagedMap.startWriting s = (r, s')) :
    s'.self.name = s.self.name ∧
      Recalls s' (match r with | .ok () => h.after .start | .error _ => h) line versions := by
  rcases hr.idle.startWriting_cases with ⟨e, hgo⟩ | ⟨s1, hgo, hc, ha, hm, hi⟩
  · rw [hgo] at hrun
    cases hrun
    exact ⟨rfl, hr⟩
  · rw [hgo] at hrun
    cases hrun
    exact ⟨hm.name, hr.cleared hi hm (by rw [hc]; rfl) (by rw [Roomy, ha]; exact hr.roomy)⟩

theorem put (hr : Recalls s h line versions) {key : K} {value : Int64} {r : Except MapError Unit}
    (hrun : PagedMap.put key value s = (r, s')) :
    s'.self.name = s.self.name ∧
      Recalls s' (match r with | .ok () => h.after (.put key value) | .error _ => h) line versions := by
  rcases hr.idle.put_cases key value with ⟨-, hgo⟩ | ⟨changes, s1, hs, hgo, hc, ha, hm, hi⟩
  · rw [hgo] at hrun
    cases hrun
    exact ⟨rfl, hr⟩
  · rw [hgo] at hrun
    cases hrun
    refine ⟨hm.name, hi, by rw [Roomy, ha]; exact hr.roomy, fun k => ?_, fun k => ?_⟩
    · rw [place_of_remains hm]
      exact hr.ended k
    · have hp := hr.pending k
      rw [hs, Option.getD_some] at hp
      rw [place_of_remains hm, hc, Option.getD_some, ChangeSet.value?_insert]
      change _ = lastPut k (h.pending ++ [(key, value)])
      rw [lastPut_concat, hp]
      by_cases hk : k = key
      · subst hk
        simp
      · simp [hk]

theorem merge (hr : Recalls s h line versions) {limit : UInt64} {r : Except MapError Nat}
    (hrun : PagedMap.merge limit s = (r, s')) (he : r ≠ .error (.archive .indicesExhausted)) :
    s'.self.name = s.self.name ∧ ∃ line', Recalls s' h line' versions := by
  obtain ⟨r1, s1, line', hgo, hi, hm, hc, hroom⟩ := hr.idle.merge_run hr.roomy.no_wrap limit
  rw [hgo] at hrun
  cases hrun
  exact ⟨hm.name, line', hr.same hi hm hc (hroom hr.roomy he)⟩

theorem reopen (hr : Recalls s h line versions) (hn : SegmentName.Plain s.self.name) :
    ∃ s' line', PagedMap.reopen s = (.ok (), s') ∧ s'.self.name = s.self.name ∧
      Recalls s' (h.after .reopen) line' versions := by
  obtain ⟨s1, line', hgo, hi, hm, hc, hroom⟩ := hr.idle.reopen_run hn
  exact ⟨s1, line', hgo, hm.name, hr.cleared hi hm (by rw [hc]; rfl) hroom⟩

theorem wait (hr : Recalls s h line versions) (clock : UInt64) :
    Recalls { s with host := { s.host with clock := clock } } h line versions :=
  hr.same (hr.idle.alike (.waited s clock)) ⟨rfl, rfl, rfl, rfl⟩ rfl
    hr.roomy

theorem shuffled (hr : Recalls s h line versions) {changes changes' : ChangeSet K}
    (hs : s.self.changes = some changes) (hp : ChangeSet.Rearranged changes changes') :
    Recalls (s.update fun m => { m with changes := some changes' }) h line versions where
  idle := hr.idle.shuffled hs hp
  roomy := hr.roomy
  ended := hr.ended
  pending key := by
    have hpending := hr.pending key
    rw [hs, Option.getD_some] at hpending
    exact ((hr.idle.collected changes hs).value?_rearranged hp _ key).trans hpending

variable [LawfulKey K]

theorem finish (hr : Recalls s h line versions) (hrun : PagedMap.endWriting s = (.ok (), s')) :
    s'.self.name = s.self.name ∧ ∃ line' versions', Recalls s' (h.after .finish) line' versions' := by
  obtain ⟨r, s1, line', past, hgo, hi, hm, hc, hwhole, hroom⟩ :=
    hr.idle.endWriting_run hr.roomy.no_wrap
  rw [hgo] at hrun
  cases hrun
  have hcollected : Collected s.self.dimensions (s.self.changes.getD []) := by
    cases hchanges : s.self.changes with
    | none => exact .nil _
    | some changes => exact hr.idle.collected changes hchanges
  refine ⟨hm.name, line', _, hi, hroom hr.roomy nofun, fun key => ?_, fun key => ?_⟩
  · rw [hwhole rfl, place_of_remains hm, Versions.lookup_after hcollected, hr.pending, hr.ended,
      ← lastPut_append]
    rfl
  · rw [hc]
    rfl

theorem find (hr : Recalls s h line versions) (key : K) (notFound : Int64) :
    ∃ s', PagedMap.find key notFound s = (.ok ((lastPut key h.ended).getD notFound), s') ∧
      s'.self.name = s.self.name ∧ Recalls s' h line versions := by
  obtain ⟨s1, hgo, ha⟩ := hr.idle.indexed.find_run key notFound
  have hroom : Roomy s1 := by
    rw [Roomy, ha.nextIndex]
    exact hr.roomy
  rw [hr.ended] at hgo
  exact ⟨s1, hgo, ha.name, hr.same (hr.idle.alike ha)
    ⟨ha.name, ha.dimensions, ha.archiveName, ha.directory⟩ ha.changes hroom⟩

end Recalls

variable [LawfulKey K] {directory : Path} {name : String} {mapSize : UInt64} {s s' : MapState K}
  {h : Puts K} {line : List Volume} {versions : Versions K}

theorem Recalls.succeeded (hr : Recalls s h line versions) (hn : SegmentName.Plain s.self.name)
    {act : PagedMap.Action K} (hs : act.run s = (.ok (), s')) :
    s'.self.name = s.self.name ∧ ∃ line' versions', Recalls s' (h.after act) line' versions' := by
  cases act with
  | start =>
      obtain ⟨hname, hr'⟩ := hr.start hs
      exact ⟨hname, line, versions, hr'⟩
  | put key value =>
      obtain ⟨hname, hr'⟩ := hr.put hs
      exact ⟨hname, line, versions, hr'⟩
  | finish => exact hr.finish hs
  | merge limit =>
      rcases Task.bind_eq hs with ⟨n, t, ht, hrest⟩ | ⟨e, -, he⟩
      · cases hrest
        obtain ⟨hname, line', hr'⟩ := hr.merge ht nofun
        exact ⟨hname, line', versions, hr'⟩
      · cases he
  | find key notFound =>
      obtain ⟨s1, hgo, hname, hr'⟩ := hr.find key notFound
      rcases Task.bind_eq hs with ⟨n, t, ht, hrest⟩ | ⟨e, -, he⟩
      · cases hrest
        rw [hgo] at ht
        cases ht
        exact ⟨hname, line, versions, hr'⟩
      · cases he
  | reopen =>
      obtain ⟨s1, line', hgo, hname, hr'⟩ := hr.reopen hn
      have hs : PagedMap.reopen s = (.ok (), s') := hs
      rw [hgo] at hs
      cases hs
      exact ⟨hname, line', versions, hr'⟩
  | wait clock =>
      cases hs
      exact ⟨rfl, line, versions, hr.wait clock⟩

theorem Recalls.failed (hr : Recalls s h line versions) (hn : SegmentName.Plain s.self.name)
    {act : PagedMap.Action K} {e : MapError} (hs : act.run s = (.error e, s')) (hact : act ≠ .finish)
    (he : e ≠ .archive .indicesExhausted) :
    s'.self.name = s.self.name ∧ ∃ line', Recalls s' h line' versions := by
  cases act with
  | start =>
      obtain ⟨hname, hr'⟩ := hr.start hs
      exact ⟨hname, line, hr'⟩
  | put key value =>
      obtain ⟨hname, hr'⟩ := hr.put hs
      exact ⟨hname, line, hr'⟩
  | finish => exact absurd rfl hact
  | merge limit =>
      rcases Task.bind_eq hs with ⟨n, t, ht, hrest⟩ | ⟨e', ht, he'⟩
      · cases hrest
      · cases he'
        exact hr.merge ht fun hex => he (Except.error.inj hex)
  | find key notFound =>
      obtain ⟨s1, hgo, -⟩ := hr.find key notFound
      rcases Task.bind_eq hs with ⟨n, t, ht, hrest⟩ | ⟨e', ht, he'⟩
      · cases hrest
      · rw [hgo] at ht
        cases ht
  | reopen =>
      obtain ⟨s1, line', hgo, -⟩ := hr.reopen hn
      have hs : PagedMap.reopen s = (.error e, s') := hs
      rw [hgo] at hs
      cases hs
  | wait clock => cases hs

namespace PagedMap

theorem Run.recalls (hr : Run K directory name mapSize s h) (hn : SegmentName.Plain name) :
    s.self.name = name ∧ ∃ line versions, Recalls s h line versions := by
  induction hr with
  | opened hd hinit =>
      obtain ⟨hname, hi, hc, hroom⟩ := idle_of_vacant hd hinit
      exact ⟨hname, [], _, hi, hroom, fun _ => rfl, fun _ => by rw [hc]; rfl⟩
  | succeeded _ hs ih =>
      obtain ⟨hname, line, versions, hr⟩ := ih
      obtain ⟨hname', line', versions', hr'⟩ := hr.succeeded (hname ▸ hn) hs
      exact ⟨hname'.trans hname, line', versions', hr'⟩
  | failed _ hs hact he ih =>
      obtain ⟨hname, line, versions, hr⟩ := ih
      obtain ⟨hname', line', hr'⟩ := hr.failed (hname ▸ hn) hs hact he
      exact ⟨hname'.trans hname, line', versions, hr'⟩
  | shuffled _ hs hp ih =>
      obtain ⟨hname, line, versions, hr⟩ := ih
      exact ⟨hname, line, versions, hr.shuffled hs hp⟩

theorem Run.reopens (hr : Run K directory name mapSize s h) (hn : SegmentName.Plain name) :
    ∃ s', PagedMap.reopen s = (.ok (), s') ∧ Run K directory name mapSize s' (h.after .reopen) := by
  obtain ⟨hname, line, versions, hrecalls⟩ := hr.recalls hn
  obtain ⟨s', line', hgo, -⟩ := hrecalls.reopen (hname ▸ hn)
  have hrun : Action.reopen.run s = (.ok (), s') := hgo
  exact ⟨s', hgo, hr.succeeded hrun⟩

omit [LawfulKey K] in
theorem run_of_scenario {acts : List (Action K)} (hs : scenario K name mapSize acts = some s) :
    Run K [] name mapSize s (acts.foldl Puts.after {}) := by
  refine of_scenario (motive := fun acts s => Run K [] name mapSize s (acts.foldl Puts.after {})) hs
    .opened fun hr _ hgo => ?_
  rw [List.foldl_append]
  exact hr.succeeded hgo

/--
In every state of every run a lookup finds the value that was put last under the key in the sessions
that have ended, or that there is none.
-/
theorem Run.find_latest (hr : Run K directory name mapSize s h) (hn : SegmentName.Plain name) (key : K)
    (notFound : Int64) :
    ∃ s', PagedMap.find key notFound s = (.ok ((lastPut key h.ended).getD notFound), s') := by
  obtain ⟨-, line, versions, hrecalls⟩ := hr.recalls hn
  obtain ⟨s', hgo, -⟩ := hrecalls.find key notFound
  exact ⟨s', hgo⟩

/-- A session puts a key twice, and the map is reopened while another session puts it again. -/
theorem find_latest_second_put :
    ∃ s s', Run UInt64 [] "x" 100 s ⟨[(7, 1), (7, 2), (8, 5)], []⟩ ∧
      PagedMap.find 7 0 s = (.ok 2, s') := by
  have hsome : (scenario UInt64 "x" 100 [.start, .put 7 1, .put 7 2, .finish, .start, .put 8 5,
      .finish, .start, .put 7 3]).isSome := by decide +kernel
  obtain ⟨s, hs⟩ := Option.isSome_iff_exists.mp hsome
  obtain ⟨s', -, hrun⟩ := (run_of_scenario hs).reopens (by decide)
  obtain ⟨s'', hfind⟩ := Run.find_latest hrun (by decide) 7 0
  exact ⟨s', s'', hrun, hfind⟩

/-- Under a name with a separator what was put is not found again. -/
theorem find_forgets_separated_name :
    ∃ s h, Run UInt64 [] "./x" 100 s h ∧ lastPut 7 h.ended = some 1 ∧
      (PagedMap.find 7 0 s).1.toOption = some 0 := by
  have hlost : (scenario UInt64 "./x" 100 [.start, .put 7 1, .finish, .reopen]).any
      fun s => decide ((PagedMap.find 7 0 s).1.toOption = some 0) := by decide +kernel
  obtain ⟨s, hs, hnone⟩ := (Option.any_eq_true ..).mp hlost
  exact ⟨s, _, run_of_scenario hs, rfl, of_decide_eq_true hnone⟩

end PagedMap

end MeteredStorage
