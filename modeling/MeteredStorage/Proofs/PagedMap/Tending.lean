import MeteredStorage.Proofs.Archive.Tending
import MeteredStorage.Proofs.PagedMap.Reaching

namespace MeteredStorage

open MeteredStorage.Task (Ensures)
open Archive (Attached Lodges Tends)

variable {K α : Type} {Q : α → Prop} {task : ArchiveTask α} {directory : Path} {name : String}
  {n : Nat} {s t : MapState K}

abbrev Anchored (directory : Path) (name : String) (n : Nat) (s : MapState K) : Prop :=
  Attached directory name n s.archived

structure MapMerge.Placed (directory : Path) (name : String) (m : MapMerge) : Prop where
  inputs : ∀ x ∈ m.merge.inputs, x.Placed directory name
  removing : ∀ segments, m.stage = .removing segments → ∀ x ∈ segments, x.Placed directory name

def System.Anchored (directory : Path) (name : String) (n : Nat) (sys : System K) : Prop :=
  MeteredStorage.Anchored directory name n sys.map ∧
    ∀ m, sys.merge = .running m → m.Placed directory name

namespace Anchored

theorem same (h : Anchored directory name n s) (ha : t.self.archive = s.self.archive)
    (hd : t.host.disk = s.host.disk) : Anchored directory name n t := by
  refine Attached.mono h (congrArg Archive.directory ha) (congrArg Archive.name ha) hd fun x hx => ?_
  rw [MapState.archived, ha] at hx
  exact ⟨x, hx, rfl, rfl, rfl⟩

theorem alike (h : Anchored directory name n s) (ha : Alike s t) : Anchored directory name n t := by
  refine Attached.mono h ha.directory ha.archiveName ha.disk fun x hx => ?_
  rw [MapState.archived, ha.segments] at hx
  exact ⟨x, hx, rfl, rfl, rfl⟩

theorem inArchive {r : Except ArchiveError α} (h : Anchored directory name n s)
    (ht : Tends directory name n Q task) (hrun : s.inArchive task = (r, t)) :
    Anchored directory name n t ∧ ∀ a, r = .ok a → Q a := by
  rcases MapState.inArchive_cases ht h hrun with ⟨a, u, rfl, rfl, hu, hq⟩ | ⟨e, u, rfl, rfl, hu⟩
  · exact ⟨hu, fun _ heq => Except.ok.inj heq ▸ hq⟩
  · exact ⟨hu, nofun⟩

theorem onArchive (h : Anchored directory name n s) (ht : Tends directory name n Q task) :
    Anchored directory name n (PagedMap.onArchive task s).2 := by
  rw [PagedMap.onArchive]
  split
  · exact (h.inArchive ht ‹_›).1
  · exact (h.inArchive ht ‹_›).1

theorem close (h : Anchored directory name n s) : Anchored directory name n (PagedMap.close s).2 := by
  rw [PagedMap.close, Task.bind_ok (Task.get_run s)]
  split
  · exact (h.alike (.report s _)).onArchive Archive.tends_close
  · exact h.onArchive Archive.tends_close

theorem relocate (h : Anchored directory name n s) (move : Relocation) :
    Anchored directory name n { s with self := (s.self.relocate move).1 } := by
  refine h.same ?_ rfl
  rw [PagedMap.relocate]
  dsimp only
  split <;> rfl

section Merge

variable {m m' : MapMerge} {p : Progress MapMerge (Except MapError Nat)}

theorem mergePrepare (h : Anchored directory name n s) (files : List Segment)
    (hrun : MapMerge.prepare files s = (p, t)) :
    Anchored directory name n t ∧ ∀ m, p = .running m → m.Placed directory name := by
  have hprepare : Archive.Tends directory name n _ (Archive.prepareMerge files) :=
    Archive.tends_prepareMerge files
  unfold MapMerge.prepare at hrun
  split at hrun
  · rename_i heq
    cases hrun
    exact ⟨(h.inArchive hprepare heq).1, nofun⟩
  · rename_i heq
    cases hrun
    exact ⟨(h.inArchive hprepare heq).1.same rfl rfl, nofun⟩
  · rename_i heq
    cases hrun
    obtain ⟨ht, hm⟩ := h.inArchive hprepare heq
    refine ⟨ht, fun _ he => ?_⟩
    cases he
    exact ⟨hm _ rfl _ rfl, nofun⟩

theorem mergeStart (h : Anchored directory name n s) {limit : UInt64}
    (hrun : MapMerge.start limit s = (p, t)) :
    Anchored directory name n t ∧ ∀ m, p = .running m → m.Placed directory name := by
  unfold MapMerge.start at hrun
  dsimp only at hrun
  split at hrun
  · cases hrun
    exact ⟨h, nofun⟩
  · exact (h.alike (.report s _)).mergePrepare _ hrun

theorem mergeStep (h : Anchored directory name n s) (hm : m.Placed directory name)
    (hstep : m.step s = (p, t)) :
    Anchored directory name n t ∧ ∀ m', p = .running m' → m'.Placed directory name := by
  unfold MapMerge.step at hstep
  split at hstep
  · cases hstep
    refine ⟨h.relocate _, fun _ he => ?_⟩
    cases he
    exact ⟨hm.inputs, nofun⟩
  · cases hstep
    refine ⟨h, fun _ he => ?_⟩
    cases he
    refine ⟨hm.inputs, fun _ hs => ?_⟩
    cases hs
    exact hm.inputs
  · rename_i x rest hs
    have hremove := Archive.tends_removeSegment (n := n) (hm.removing _ hs x (List.mem_cons_self ..))
    split at hstep
    · rename_i heq
      cases hstep
      refine ⟨(h.inArchive hremove heq).1, fun _ he => ?_⟩
      cases he
      refine ⟨hm.inputs, fun _ he => ?_⟩
      cases he
      exact fun y hy => hm.removing _ hs y (List.mem_cons_of_mem _ hy)
    · rename_i heq
      cases hstep
      exact ⟨(h.inArchive hremove heq).1, nofun⟩
  · split at hstep
    · rename_i heq
      cases hstep
      exact ⟨(h.inArchive (Archive.tends_concludeMerge _) heq).1.same rfl rfl, nofun⟩
    · rename_i heq
      cases hstep
      exact ⟨(h.inArchive (Archive.tends_concludeMerge _) heq).1, nofun⟩

theorem mergeRun (h : Anchored directory name n s) (hm : m.Placed directory name) :
    Anchored directory name n (m.run s).2 := by
  induction m, s using MapMerge.run.induct with
  | case1 m s r s' hstep =>
      have ht := (h.mergeStep hm hstep).1
      rw [MapMerge.run]
      split <;> simp_all
  | case2 m s m' s' hstep ih =>
      obtain ⟨ht, hm'⟩ := h.mergeStep hm hstep
      rw [MapMerge.run]
      split
      · simp_all
      · rename_i heq
        rw [hstep] at heq
        cases heq
        exact ih ht (hm' _ rfl)

theorem merge (h : Anchored directory name n s) (limit : UInt64) :
    Anchored directory name n (PagedMap.merge limit s).2 := by
  rw [PagedMap.merge]
  split
  · rename_i heq
    exact (h.mergeStart heq).1
  · rename_i heq
    obtain ⟨ht, hm⟩ := h.mergeStart heq
    exact ht.mergeRun (hm _ rfl)

end Merge

theorem flushStart (h : Anchored directory name n s) : Anchored directory name n (Flush.start s).2 := by
  obtain ⟨t, ht, ⟨r, hstart, -⟩ | ⟨changes, -, hstart⟩⟩ := Flush.start_cases s
  · rw [hstart]
    exact h.same ht.archive (by rw [ht.host])
  · rw [hstart]
    exact h.same ht.archive (by rw [ht.host])

theorem flushClose (h : Anchored directory name n s) (f : Flush K) (failure : Option MapError) :
    Anchored directory name n (f.closeStep failure s).2 := by
  have hend : Archive.Tends directory name n _
      (Archive.endWriting 0 (Int64.ofInt s.self.dimensions.buckets)) := Archive.tends_endWriting _ _
  rcases hrun : s.inArchive (Archive.endWriting 0 (Int64.ofInt s.self.dimensions.buckets)) with ⟨r, t⟩
  have ht := (h.inArchive hend hrun).1
  rw [Flush.closeStep]
  dsimp only
  rw [hrun]
  split <;> exact ht.same rfl rfl

variable [FixedKey K] {f : Flush K}

theorem flushStep (h : Anchored directory name n s) {p : Progress (Flush K) (Except MapError Unit)}
    (hstep : f.step s = (p, t)) : Anchored directory name n t := by
  unfold Flush.step at hstep
  split at hstep
  · split at hstep
    · rename_i heq
      cases hstep
      exact (h.inArchive Archive.tends_startWriting heq).1
    · rename_i heq
      cases hstep
      exact (h.inArchive Archive.tends_startWriting heq).1.same rfl rfl
  · split at hstep
    · cases hstep
      exact h
    · cases hstep
      exact h
  · rename_i bucket changes location _
    obtain ⟨g, s', hgo, ha, -⟩ := f.readStep_cases bucket changes location s
    rw [hgo] at hstep
    cases hstep
    exact h.alike ha
  · split at hstep
    · rename_i heq
      cases hstep
      exact (h.inArchive (Archive.tends_store _) heq).1
    · rename_i heq
      cases hstep
      exact (h.inArchive (Archive.tends_store _) heq).1
  · cases hstep
    exact h.same rfl rfl
  · rename_i failure _
    have ht := h.flushClose f failure
    cases hstep
    exact ht

theorem flushRun (h : Anchored directory name n s) : Anchored directory name n (f.run s).2 := by
  induction f, s using Flush.run.induct with
  | case1 f s r s' hstep =>
      rw [Flush.run_of_done hstep]
      exact h.flushStep hstep
  | case2 f s f' s' hstep ih =>
      rw [Flush.run_of_running hstep]
      exact ih (h.flushStep hstep)

theorem endWriting (h : Anchored directory name n s) :
    Anchored directory name n (PagedMap.endWriting s).2 := by
  have hstart := h.flushStart
  rw [PagedMap.endWriting]
  split
  · rename_i heq
    rwa [heq] at hstart
  · rename_i heq
    rw [heq] at hstart
    exact hstart.flushRun

theorem get (h : Anchored directory name n s) (g : Get K) : Anchored directory name n (g.advance s).2 :=
  h.alike (g.alike_advance s)

end Anchored

namespace PagedMap

variable [FixedKey K]

theorem ensures_ofArchive (mapSize : UInt64) (a : Archive) :
    Ensures (fun h => Attached directory name n ⟨a, h⟩)
      (fun m h => Anchored directory name n (K := K) ⟨m, h⟩)
      (fun _ h => Lodges directory name n [] h.disk) (ofArchive K directory name mapSize a) := by
  have hmake : Ensures (Lodges directory name n (a.segments.map (Segment.listing name)))
      (fun _ => Lodges directory name n (a.segments.map (Segment.listing name)))
      (fun _ => Lodges directory name n []) (Disk.makeDirectories directory) := by
    intro d hd
    rw [Disk.makeDirectories_run hd.home]
    exact hd
  have hreport (event : Event) : Ensures (fun h => Attached directory name n ⟨a, h⟩)
      (fun _ h => Attached directory name n ⟨a, h⟩) (fun _ h => Lodges directory name n [] h.disk)
      (Host.report event : Task Host MapError Unit) :=
    Ensures.modify fun _ hs => hs.mono rfl rfl rfl fun x hx => ⟨x, hx, rfl, rfl, rfl⟩
  have hread {ε β : Type} (wrap : ε → MapError) (r : Except ε β) :
      Ensures (fun h => Attached directory name n ⟨a, h⟩) (fun _ h => Attached directory name n ⟨a, h⟩)
        (fun _ h => Lodges directory name n [] h.disk) (Task.ofExcept wrap r) :=
    Ensures.ofExcept (fun _ _ _ hs => hs) fun _ _ hs => hs.lodges.bare
  unfold ofArchive
  refine (hread _ _).bind fun d => Ensures.bind (Q := fun _ h => Attached directory name n ⟨a, h⟩)
    (Ensures.zoom hmake (fun _ hs => hs.lodges) (fun _ _ _ hs ht =>
      ⟨hs.placed, ht, hs.directory, hs.name⟩) fun _ _ _ _ ht => ht) fun _ => ?_
  refine Ensures.get fun host hs => ?_
  refine Ensures.mono (P := fun h => Attached directory name n ⟨a, h⟩) ?_ (fun _ he => he ▸ hs)
    (fun _ _ h => h) fun _ _ h => h
  refine (hread _ _).bind fun _ => ?_
  split
  have hopen := fun m h (ht : Attached directory name n ⟨a, h⟩) =>
    show Anchored directory name n (K := K) ⟨⟨name, d, m, a, false, none, {}⟩, h⟩ from ht
  dsimp only
  split
  · exact (hreport _).bind fun _ => (hreport _).bind fun _ => Ensures.pure fun t ht => hopen _ t ht
  · exact (hreport _).bind fun _ => Ensures.pure fun t ht => hopen _ t ht

theorem ensures_init (mapSize : UInt64) :
    Ensures (fun h => Lodges directory name n [] h.disk)
      (fun m h => Anchored directory name n (K := K) ⟨m, h⟩)
      (fun _ h => Lodges directory name n [] h.disk) (init K directory name mapSize) :=
  Ensures.bind (Q := fun a h => Attached directory name n ⟨a, h⟩)
    (Ensures.zoom Archive.ensures_init (fun _ hs => hs) (fun _ _ _ _ ht => ht) fun _ _ _ _ ht => ht)
    (ensures_ofArchive mapSize)

end PagedMap

section Turns

variable [FixedKey K]

/-- Whoever's turn it is, the archive stays attached. -/
theorem System.Anchored.step {sys : System K} (h : sys.Anchored directory name n) (turn : Turn K) :
    (sys.step turn).Anchored directory name n := by
  obtain ⟨hmap, hmerge⟩ := h
  cases turn with
  | write =>
      rw [System.step]
      split
      · exact ⟨hmap.flushStart, hmerge⟩
      · rename_i f _
        exact ⟨hmap.flushStep (f := f) rfl, hmerge⟩
      · exact ⟨hmap, hmerge⟩
  | merge limit =>
      rw [System.step]
      split
      · dsimp only
        split
        · exact ⟨hmap, fun _ he => by cases he⟩
        · exact ⟨hmap.alike (.report sys.map _), fun _ he => by cases he⟩
      · rename_i files _
        obtain ⟨ht, hm⟩ := hmap.mergePrepare files rfl
        exact ⟨ht, fun m he => hm m (MergeStatus.running_of_ofProgress he)⟩
      · rename_i m hrunning
        obtain ⟨ht, hm⟩ := hmap.mergeStep (hmerge m hrunning) rfl
        exact ⟨ht, fun m he => hm m (MergeStatus.running_of_ofProgress he)⟩
      · exact ⟨hmap, hmerge⟩
  | get key notFound => exact ⟨hmap.alike (.gotten sys.map), hmerge⟩
  | advance i =>
      rw [System.step]
      split
      · exact ⟨hmap, hmerge⟩
      · rename_i g _
        exact ⟨hmap.get g, hmerge⟩
  | wait clock => exact ⟨hmap.alike (.waited sys.map clock), hmerge⟩

theorem System.Anchored.run {sys : System K} (h : sys.Anchored directory name n)
    (turns : List (Turn K)) : (sys.run turns).Anchored directory name n := by
  induction turns generalizing sys with
  | nil => exact h
  | cons turn turns ih => exact ih (h.step turn)

variable [DecidableEq K]

theorem Anchored.action (h : Anchored directory name n s) {act : PagedMap.Action K}
    (hact : act ≠ .reopen) : Anchored directory name n (act.run s).2 := by
  cases act with
  | start =>
      rw [PagedMap.Action.run, PagedMap.startWriting]
      by_cases hb : s.self.busy
      · simpa [hb] using h
      · simpa [hb] using h.same (t := s.update fun m => { m with busy := true, changes := some [] }) rfl rfl
  | put key value =>
      rw [PagedMap.Action.run, PagedMap.put]
      cases hc : s.self.changes with
      | none => simpa [hc] using h
      | some changes =>
          simp only [Task.bind_run, Task.get_run, hc, Task.modify_run]
          exact h.same rfl rfl
  | finish => exact h.endWriting
  | merge limit =>
      rw [PagedMap.Action.run, Task.snd_ignore]
      exact h.merge limit
  | find key notFound =>
      rw [PagedMap.Action.run, Task.snd_ignore]
      exact h.alike (PagedMap.alike_find key notFound s)
  | reopen => exact absurd rfl hact
  | wait clock => exact h.alike (.waited s clock)

end Turns

/--
The machine, and the map on it if one is open, as they come about from an empty directory: by openings
and by all that is done with a map, each with whatever outcome, and by damage to what the files hold.
A session, a merge and gets may be under way at once. To reopen a map is to close and to open it.
-/
inductive PagedMap.Tended (K : Type) [DecidableEq K] [FixedKey K] (directory : Path) (name : String) :
    Host → Option (PagedMap K) → Prop
  | vacant {host : Host} (hd : host.disk.Vacant directory) : Tended K directory name host none
  | opened {host host' : Host} {m : Option (PagedMap K)} {mapSize : UInt64}
      {r : Except MapError (PagedMap K)} (ht : Tended K directory name host m)
      (hrun : init K directory name mapSize host = (r, host')) :
      Tended K directory name host' r.toOption
  | acted {s t : MapState K} {act : Action K} {r : Except MapError Unit}
      (hs : Tended K directory name s.host (some s.self)) (hrun : act.run s = (r, t))
      (hact : act ≠ .reopen) : Tended K directory name t.host (some t.self)
  | shuffled {s : MapState K} {changes changes' : ChangeSet K}
      (hs : Tended K directory name s.host (some s.self)) (hc : s.self.changes = some changes)
      (hr : ChangeSet.Rearranged changes changes') :
      Tended K directory name s.host (some { s.self with changes := some changes' })
  | worked {s : MapState K} (turns : List (Turn K))
      (hs : Tended K directory name s.host (some s.self)) :
      Tended K directory name ((System.start s).run turns).map.host
        (some ((System.start s).run turns).map.self)
  | closed {s t : MapState K} {r : Except MapError Unit}
      (hs : Tended K directory name s.host (some s.self)) (hrun : close s = (r, t)) :
      Tended K directory name t.host none
  | damaged {host : Host} {m : Option (PagedMap K)} {d : Disk} (ht : Tended K directory name host m)
      (hd : host.disk.Scrambled d) : Tended K directory name { host with disk := d } m

theorem PagedMap.tended_of_scenario [DecidableEq K] [FixedKey K] {mapSize : UInt64}
    {acts : List (Action K)} (hs : scenario K name mapSize acts = some s) (hacts : .reopen ∉ acts) :
    Tended K [] name s.host (some s.self) := by
  refine of_scenario (motive := fun done s => .reopen ∉ done → Tended K [] name s.host (some s.self)) hs
    (fun hd hinit _ => .opened (.vacant hd) hinit) (fun hm _ hrun hdone => ?_) hacts
  rw [List.mem_append, not_or, List.mem_singleton] at hdone
  exact .acted (hm hdone.1) hrun fun he => hdone.2 he.symm

/-- Whatever has happened, the files are in their places, and a map that is open is anchored. -/
theorem PagedMap.Tended.anchored [DecidableEq K] [FixedKey K] {host : Host} {m : Option (PagedMap K)}
    (ht : Tended K directory name host m) :
    ∃ n, Lodges directory name n [] host.disk ∧
      ∀ m', m = some m' → Anchored directory name n ⟨m', host⟩ := by
  have hgo {n : Nat} {t : MapState K} (h : Anchored directory name n t) :
      ∃ n, Lodges directory name n [] t.host.disk ∧
        ∀ m', some t.self = some m' → Anchored directory name n ⟨m', t.host⟩ :=
    ⟨n, h.lodges.bare, fun _ he => Option.some.inj he ▸ h⟩
  induction ht with
  | vacant hd =>
      have hvacant : Archive.Tended directory name _ none := .vacant hd
      obtain ⟨n, hn, -⟩ := hvacant.attached
      exact ⟨n, hn, nofun⟩
  | opened _ hrun ih =>
      obtain ⟨n, hn, -⟩ := ih
      rcases (ensures_init _).run hn hrun with ⟨m, rfl, hm⟩ | ⟨e, rfl, he⟩
      · exact hgo hm
      · exact ⟨n, he, nofun⟩
  | acted _ hrun hact ih =>
      obtain ⟨n, -, hm⟩ := ih
      have ht := (hm _ rfl).action hact
      rw [hrun] at ht
      exact hgo ht
  | shuffled _ _ _ ih =>
      obtain ⟨n, hn, hm⟩ := ih
      exact ⟨n, hn, fun _ he => Option.some.inj he ▸ (hm _ rfl).same rfl rfl⟩
  | @worked s turns _ ih =>
      obtain ⟨n, -, hm⟩ := ih
      have hsys : (System.start s).Anchored directory name n := ⟨hm _ rfl, nofun⟩
      exact hgo (hsys.run turns).1
  | @closed s t r _ hrun ih =>
      obtain ⟨n, -, hm⟩ := ih
      have ht := (hm _ rfl).close
      rw [hrun] at ht
      exact ⟨n, ht.lodges.bare, nofun⟩
  | damaged _ hd ih =>
      obtain ⟨n, hn, hm⟩ := ih
      exact ⟨n, hn.congr hd.1 hd.2, fun m' heq => ⟨(hm m' heq).placed,
        (hm m' heq).lodges.congr hd.1 hd.2, (hm m' heq).directory, (hm m' heq).name⟩⟩

end MeteredStorage
