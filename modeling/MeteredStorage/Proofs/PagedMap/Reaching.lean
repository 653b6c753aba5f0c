import MeteredStorage.Proofs.Archive.Recency
import MeteredStorage.Proofs.PagedMap.Interleaving
import MeteredStorage.Proofs.PagedMap.Rebuilding

namespace MeteredStorage

namespace PagedMap

inductive Action (K : Type)
  | start
  | put (key : K) (value : Int64)
  | finish
  | merge (limit : UInt64)
  | find (key : K) (notFound : Int64)
  | reopen
  | wait (clock : UInt64)

variable {K : Type} [DecidableEq K] [FixedKey K]

def Action.run : Action K → MapTask K Unit
  | start => startWriting
  | put key value => PagedMap.put key value
  | finish => endWriting
  | merge limit => do let _ ← PagedMap.merge limit
  | find key notFound => do let _ ← PagedMap.find key notFound
  | reopen => PagedMap.reopen
  | wait clock => modify fun s => { s with host := { s.host with clock := clock } }

end PagedMap

variable {K : Type}

/--
The next index has at least three values left before it runs over its 32 bits, so that a session and a
merge both get one that is not in use. A refused index counts: it is passed over and never tried again.
-/
def HasIndices (s : MapState K) : Prop := s.self.archive.nextIndex.toNat + 2 < 0x100000000

theorem HasIndices.no_wrap {s : MapState K} (h : HasIndices s) :
    s.self.archive.nextIndex.toNat + 1 < 0x100000000 :=
  Nat.lt_of_succ_lt h

def Get.value? (g : Get K) : Option Int64 :=
  match g.stage with
  | .returned (.ok value) => some value
  | _ => none

theorem Get.stage_of_value? {g : Get K} {value : Int64} (h : g.value? = some value) :
    g.stage = .returned (.ok value) := by
  unfold value? at h
  split at h <;> simp_all

def FlushStatus.succeeded : FlushStatus K → Bool
  | .finished (.ok ()) => true
  | _ => false

theorem FlushStatus.finished_of_succeeded {writer : FlushStatus K} (h : writer.succeeded) :
    writer = .finished (.ok ()) := by
  unfold succeeded at h
  split at h <;> simp_all

variable [DecidableEq K] [FixedKey K]

/--
The states of a map that was opened in an empty directory and had indices left before every step but the
opening: a map whose next index has come within three values of the end of its 32 bits goes no further
here, and one whose index has run over is left out. `Used` has these too. Whatever was done with the map
may have failed, and sessions, merges and gets may have been interleaved until no session or merge was
under way.
-/
inductive Reach (K : Type) [DecidableEq K] [FixedKey K] (directory : Path) (name : String)
    (mapSize : UInt64) : MapState K → Prop
  | opened {host host' : Host} {m : PagedMap K} (hd : host.disk.Vacant directory)
      (h : PagedMap.init K directory name mapSize host = (.ok m, host')) :
      Reach K directory name mapSize ⟨m, host'⟩
  | acted {s s' : MapState K} {act : PagedMap.Action K} {r : Except MapError Unit}
      (hr : Reach K directory name mapSize s) (hi : HasIndices s) (h : act.run s = (r, s')) :
      Reach K directory name mapSize s'
  | shuffled {s : MapState K} {changes changes' : ChangeSet K}
      (hr : Reach K directory name mapSize s) (hs : s.self.changes = some changes)
      (h : ChangeSet.Rearranged changes changes') :
      Reach K directory name mapSize (s.update fun m => { m with changes := some changes' })
  | worked {s : MapState K} (turns : List (Turn K)) (hr : Reach K directory name mapSize s)
      (hi : HasIndices s) (hw : ((System.start s).run turns).writer.active = false)
      (hm : ((System.start s).run turns).merge.active = false) :
      Reach K directory name mapSize ((System.start s).run turns).map

variable {directory : Path} {name : String} {mapSize : UInt64} {s s' : MapState K}
  {line : List Volume} {versions : Versions K}

omit [DecidableEq K] in
theorem Idle.shuffled (h : Idle s line versions) {changes changes' : ChangeSet K}
    (hs : s.self.changes = some changes) (hr : ChangeSet.Rearranged changes changes') :
    Idle (s.update fun m => { m with changes := some changes' }) line versions := by
  refine h.collecting ⟨rfl, rfl, rfl, rfl⟩ rfl rfl rfl fun cs hc => ?_
  cases hc
  exact (h.collected changes hs).rearranged hr

variable [LawfulKey K]

theorem Idle.acted (h : Idle s line versions) (hi : HasIndices s) {act : PagedMap.Action K}
    {r : Except MapError Unit} (hrun : act.run s = (r, s')) :
    ∃ line' versions', Idle s' line' versions' := by
  cases act with
  | start =>
      have hrun : PagedMap.startWriting s = (r, s') := hrun
      rcases h.startWriting_cases with ⟨e, hgo⟩ | ⟨s1, hgo, -, -, -, h1⟩
      · rw [hgo] at hrun
        cases hrun
        exact ⟨line, versions, h⟩
      · rw [hgo] at hrun
        cases hrun
        exact ⟨line, versions, h1⟩
  | put key value =>
      have hrun : PagedMap.put key value s = (r, s') := hrun
      rcases h.put_cases key value with ⟨-, hgo⟩ | ⟨changes, s1, -, hgo, -, -, -, h1⟩
      · rw [hgo] at hrun
        cases hrun
        exact ⟨line, versions, h⟩
      · rw [hgo] at hrun
        cases hrun
        exact ⟨line, versions, h1⟩
  | finish =>
      have hrun : PagedMap.endWriting s = (r, s') := hrun
      obtain ⟨r1, s1, line', past, hgo, h1, -⟩ := h.endWriting_run hi.no_wrap
      rw [hgo] at hrun
      cases hrun
      exact ⟨line', _, h1⟩
  | merge limit =>
      obtain ⟨r1, s1, line', hgo, h1, -⟩ := h.merge_run hi.no_wrap limit
      rcases Task.bind_eq hrun with ⟨n, t, ht, hrest⟩ | ⟨e, ht, -⟩
      · rw [hgo] at ht
        cases ht
        cases hrest
        exact ⟨line', versions, h1⟩
      · rw [hgo] at ht
        cases ht
        exact ⟨line', versions, h1⟩
  | find key notFound =>
      obtain ⟨s1, hgo, ha⟩ := h.indexed.find_run key notFound
      rcases Task.bind_eq hrun with ⟨n, t, ht, hrest⟩ | ⟨e, ht, -⟩
      · rw [hgo] at ht
        cases ht
        cases hrest
        exact ⟨line, versions, h.alike ha⟩
      · rw [hgo] at ht
        cases ht
  | reopen =>
      have hrun : PagedMap.reopen s = (r, s') := hrun
      by_cases hn : SegmentName.Plain s.self.name
      · obtain ⟨s1, line', hgo, h1, -⟩ := h.reopen_run hn
        rw [hgo] at hrun
        cases hrun
        exact ⟨line', versions, h1⟩
      · obtain ⟨s1, line', hgo, h1, -⟩ := h.reopen_foreign hn
        rw [hgo] at hrun
        cases hrun
        exact ⟨line', _, h1⟩
  | wait clock =>
      cases hrun
      exact ⟨line, versions, h.alike (.waited s clock)⟩

theorem Reach.idle (h : Reach K directory name mapSize s) :
    ∃ line versions, Idle s line versions := by
  induction h with
  | opened hd hinit =>
      obtain ⟨-, hidle, -⟩ := idle_of_vacant hd hinit
      exact ⟨[], _, hidle⟩
  | acted _ hi hrun ih =>
      obtain ⟨line, versions, hidle⟩ := ih
      exact hidle.acted hi hrun
  | shuffled _ hs hr ih =>
      obtain ⟨line, versions, hidle⟩ := ih
      exact ⟨line, versions, hidle.shuffled hs hr⟩
  | worked turns _ hi hw hm ih =>
      obtain ⟨line, versions, hidle⟩ := ih
      obtain ⟨k, versions', hworks⟩ := (hidle.works hi).run hidle.collected turns
      exact ⟨k.line, versions', hworks.idle hidle hw hm⟩

/--
What a session has made of a map that showed `versions`: it has written the buckets of `past`, which
are a first part of its changes, or all of them if it has succeeded, and the others show what they did.
-/
structure Concludes (s t : MapState K) (r : Except MapError Unit) (versions : Versions K)
    (past : ChangeSet K) : Prop where
  before : ∀ b < s.self.dimensions.buckets, Publishes s b (versions b)
  part : past <+: s.self.changes.getD []
  whole : r = .ok () → past = s.self.changes.getD []
  counted : t.self.counts.written = s.self.counts.written + past.length
  written : ∀ c ∈ past, Publishes t c.1 (some (versions.changed c.1 c.2))
  others : ∀ b < s.self.dimensions.buckets, b ∉ past.map Prod.fst → Publishes t b (versions b)

theorem Works.concludes {origin : MapState K} {base : Versions K} {sys : System K} {k : Stock}
    (h : Works origin base sys k versions) (hi : Idle origin line base)
    {r : Except MapError Unit} (hw : sys.writer = .finished r) :
    ∃ past, Concludes origin sys.map r base past := by
  have hwriter := h.writer
  rw [hw] at hwriter
  cases hwriter with
  | @finished r past hs hdone =>
      have hcollected : Collected origin.self.dimensions (origin.self.changes.getD []) := by
        cases hchanges : origin.self.changes with
        | none => exact .nil _
        | some changes => exact hi.collected changes hchanges
      have hnodup : (past.map Prod.fst).Nodup :=
        hcollected.buckets.sublist (hdone.part.sublist.map _)
      have hpublishes {b : Nat} (hb : b < origin.self.dimensions.buckets) :
          Publishes sys.map b (base.after past b) := by
        rw [← hdone.versions_eq]
        exact h.indexed.publishes (h.remains.dimensions ▸ hb)
      refine ⟨past, fun b hb => hi.indexed.publishes hb, hdone.part, hdone.whole, hdone.counted_eq,
        fun c hc => ?_, fun b hb hnot => ?_⟩
      · have hp := hpublishes (hcollected.bounded c (hdone.part.subset hc))
        rwa [Versions.after_of_mem hnodup hc] at hp
      · have hp := hpublishes hb
        rwa [Versions.after_of_not_mem hnot] at hp

section Scenario

omit [LawfulKey K]

def PagedMap.perform : List (PagedMap.Action K) → MapState K → Option (MapState K)
  | [], s => some s
  | act :: acts, s =>
    if s.self.archive.nextIndex.toNat + 2 < 0x100000000 then
      match act.run s with
      | (.ok (), s') => perform acts s'
      | (.error _, _) => none
    else none

def PagedMap.scenario (K : Type) [DecidableEq K] [FixedKey K] (name : String) (mapSize : UInt64)
    (acts : List (PagedMap.Action K)) : Option (MapState K) :=
  match init K [] name mapSize ⟨{}, 0, []⟩ with
  | (.ok m, host) => perform acts ⟨m, host⟩
  | (.error _, _) => none

theorem PagedMap.of_perform {motive : List (PagedMap.Action K) → MapState K → Prop}
    (hact : ∀ {done s act s'}, motive done s → HasIndices s → act.run s = (.ok (), s') →
      motive (done ++ [act]) s') {done acts : List (PagedMap.Action K)} (hm : motive done s)
    (hp : perform acts s = some s') : motive (done ++ acts) s' := by
  induction acts generalizing done s with
  | nil =>
      cases hp
      rw [List.append_nil]
      exact hm
  | cons act acts ih =>
      rw [perform] at hp
      split at hp
      · rename_i hi
        split at hp
        · rename_i s1 hgo
          rw [List.append_cons]
          exact ih (hact hm hi hgo) hp
        · cases hp
      · cases hp

theorem PagedMap.of_scenario {motive : List (PagedMap.Action K) → MapState K → Prop}
    {acts : List (PagedMap.Action K)} (hs : scenario K name mapSize acts = some s)
    (hopened : ∀ {host host' m}, host.disk.Vacant [] → init K [] name mapSize host = (.ok m, host') →
      motive [] ⟨m, host'⟩)
    (hact : ∀ {done s act s'}, motive done s → HasIndices s → act.run s = (.ok (), s') →
      motive (done ++ [act]) s') : motive acts s := by
  unfold scenario at hs
  split at hs
  · rename_i m host hinit
    exact of_perform hact (hopened Archive.vacant_root hinit) hs
  · cases hs

theorem reach_of_scenario {acts : List (PagedMap.Action K)}
    (hs : PagedMap.scenario K name mapSize acts = some s) : Reach K [] name mapSize s :=
  PagedMap.of_scenario (motive := fun _ s => Reach K [] name mapSize s) hs .opened .acted

end Scenario

/--
In every interleaving of one session, one merge and gets on a map that has had indices left before each of
its steps and still has, a get that returns has the value of its key in a version that was published while
it was under way, and has loaded its slot again at most once, and only if it has met the merge. Once the
session is over, and so also once both are, each bucket that was written shows its changes and each other
one what it showed before. A map without the indices has no such law: once the next index has run over, a
session may write a segment that is older than what it replaces, and a merge removes it.
-/
theorem Reach.interleaving_reads_published (h : Reach K directory name mapSize s) (hi : HasIndices s)
    (turns : List (Turn K)) :
    (∀ g ∈ ((System.start s).run turns).gets, g.retries ≤ g.overlapped.toNat ∧
      ∀ r, g.stage = .returned r → ∃ t ∈ g.window, Answers t g.key g.notFound r) ∧
    ∀ r, ((System.start s).run turns).writer = .finished r →
      ∃ versions past, Concludes s ((System.start s).run turns).map r versions past := by
  obtain ⟨line, base, hidle⟩ := h.idle
  obtain ⟨k, versions, hworks⟩ := (hidle.works hi).run hidle.collected turns
  refine ⟨fun g hg => ?_, fun r hw => ⟨base, hworks.concludes hidle hw⟩⟩
  cases hworks.gets g hg with
  | reading hs _ hr => exact ⟨hr, fun r he => by rw [hs] at he; cases he⟩
  | missed hs hm =>
      exact ⟨by rw [hm.first]; exact Nat.zero_le _, fun r he => by rw [hs] at he; cases he⟩
  | returned hs ha hr =>
      refine ⟨hr, fun r he => ?_⟩
      rw [hs] at he
      cases he
      exact ha

/-- A get that has loaded an empty slot finds nothing, though a session has published a page since. -/
theorem interleaving_reads_empty_slot :
    ∃ (s : MapState UInt64) (turns : List (Turn UInt64)) (g : Get UInt64),
      Reach UInt64 [] "x" 100 s ∧ HasIndices s ∧ g ∈ ((System.start s).run turns).gets ∧
        g.stage = .returned (.ok 0) ∧ g.retries ≤ g.overlapped.toNat ∧
        (∃ t ∈ g.window, Answers t g.key g.notFound (.ok 0)) ∧
        ∃ versions past, Concludes s ((System.start s).run turns).map (.ok ()) versions past := by
  let turns : List (Turn UInt64) :=
    [.get 8 0, .write, .write, .write, .write, .write, .write, .write, .write, .advance 0]
  have hends : (PagedMap.scenario UInt64 "x" 100 [.start, .put 7 1, .finish, .start, .put 8 2]).any
      fun s => decide (s.self.archive.nextIndex.toNat + 2 < 0x100000000) &&
        ((System.start s).run turns).writer.succeeded &&
        ((System.start s).run turns).gets.any fun g => g.value? == some 0 := by
    decide +kernel
  obtain ⟨s, hs, hrun⟩ := (Option.any_eq_true ..).mp hends
  simp only [Bool.and_eq_true, decide_eq_true_eq, List.any_eq_true, beq_iff_eq] at hrun
  obtain ⟨⟨hi, hw⟩, g, hg, hv⟩ := hrun
  have hr : Reach UInt64 [] "x" 100 s := reach_of_scenario hs
  obtain ⟨hgets, hend⟩ := hr.interleaving_reads_published hi turns
  obtain ⟨hretries, hanswers⟩ := hgets g hg
  have hstage := Get.stage_of_value? hv
  exact ⟨s, turns, g, hr, hi, hg, hstage, hretries, hanswers _ hstage,
    hend _ (FlushStatus.finished_of_succeeded hw)⟩

end MeteredStorage
