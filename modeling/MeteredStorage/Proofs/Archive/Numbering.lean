import Mathlib.Algebra.Order.Ring.Nat
import Mathlib.Data.List.Forall2
import MeteredStorage.Proofs.Archive.Sharing
import MeteredStorage.Proofs.Segment.Reading

namespace MeteredStorage

open SegmentName (Plain)
open MeteredStorage.Task (Abides Ensures)

namespace Disk

variable {d : Disk}

def file? : Change → Option Place
  | .createFile p => some p
  | _ => none

def made (d : Disk) : List Place := (d.history.filterMap file?).reverse

theorem made_changed (d : Disk) (c : Change) : (d.changed c).made = d.made ++ (file? c).toList := by
  cases c <;> simp [made, changed, file?, List.filterMap_cons]

theorem made_created (d : Disk) (p : Place) : (d.created p).made = d.made ++ [p] :=
  made_changed d (.createFile p)

theorem made_quiet {α : Type} {task : DiskTask α} (h : Task.Quiet id task) (d : Disk) :
    (task d).2.made = d.made := by
  have he := h d
  rw [id, id] at he
  rw [he]

theorem made_unlink (path : Path) (d : Disk) : (unlink path d).2.made = d.made := by
  rcases unlink_cases path d with ⟨e, hrun⟩ | ⟨trail, name, slot, -, -, hrun⟩
  · rw [hrun]
  · rw [hrun]
    exact (made_changed d _).trans (List.append_nil _)

theorem made_unlinkIfPresent (path : Path) (d : Disk) : (unlinkIfPresent path d).2.made = d.made := by
  have h := made_unlink path d
  rw [unlinkIfPresent, Task.bind_run, Task.attempt_run]
  rcases hrun : unlink path d with ⟨_ | _, d'⟩
  · rw [hrun] at h
    rename_i e
    cases e <;> exact h
  · rw [hrun] at h
    exact h

end Disk

structure Place.Spells (p : Place) (name : String) (index : UInt32) : Prop where
  ending : SegmentName.ending index <:+ p.name.toList
  plain : Plain name → p.name = SegmentName.ofIndex name index

namespace Archive

open Hosted

theorem fetch_ne_exhausted (a : Archive) (d : Disk) (location : Int64) (part : Part) (room : Nat) :
    a.fetch d location part room ≠ .error .indicesExhausted := by
  intro h
  rw [fetch] at h
  split at h
  · cases h
  · split at h
    · cases h
    · cases Segment.read_error h

/--
Since `s₀` the counter has taken `taken` numbers, and files were created with those of `numbers`. An
index is a number as 32 bits tell it.
-/
structure Numbered (s₀ : Hosted Archive) (taken : Nat) (numbers : List Nat) (s : Hosted Archive) :
    Prop where
  name : s.self.name = s₀.self.name
  next : s.self.nextIndex = UInt32.ofNat (s₀.self.nextIndex.toNat + taken)
  made : ∃ new, s.host.disk.made = s₀.host.disk.made ++ new ∧
    List.Forall₂ (fun p n => p.Spells s₀.self.name (UInt32.ofNat n)) new numbers
  rising : numbers.Pairwise (· < ·)
  bounds : ∀ n ∈ numbers, s₀.self.nextIndex.toNat ≤ n ∧ n < s₀.self.nextIndex.toNat + taken
  small : ∀ n ∈ numbers, n % 0x100000000 < Location.maxSegments

def Tally (s₀ : Hosted Archive) (k : Nat) (spent : Prop) (s : Hosted Archive) : Prop :=
  ∃ taken ≤ k, ∃ numbers, Numbered s₀ taken numbers s ∧
    (spent → ∃ n, s₀.self.nextIndex.toNat ≤ n ∧ n < s₀.self.nextIndex.toNat + taken ∧
      Location.maxSegments ≤ n % 0x100000000)

/--
The task takes at most `k` numbers, and what it returns has `Q`. It finds the indices exhausted only
for a number that it takes.
-/
def Takes (k : Nat) {α : Type} (Q : α → Prop) (task : ArchiveTask α) : Prop :=
  ∀ s₀ j, Ensures (Tally s₀ j False) (fun a s => Tally s₀ (j + k) False s ∧ Q a)
    (fun e s => Tally s₀ (j + k) (e = .indicesExhausted) s) task

variable {j k : Nat} {α β : Type} {Q : α → Prop} {R : β → Prop} {s s₀ t : Hosted Archive}
  {task : ArchiveTask α} {f : α → ArchiveTask β} {p q : Prop}

theorem Tally.refl (s : Hosted Archive) : Tally s 0 False s :=
  ⟨0, Nat.le_refl _, [], ⟨rfl, by simp, ⟨[], by simp, .nil⟩, .nil, nofun, nofun⟩, False.elim⟩

theorem Tally.mono (h : Tally s₀ j p s) (hk : j ≤ k) (hq : q → p) : Tally s₀ k q s := by
  obtain ⟨taken, hle, numbers, hn, hspent⟩ := h
  exact ⟨taken, Nat.le_trans hle hk, numbers, hn, fun h => hspent (hq h)⟩

theorem Tally.same (h : Tally s₀ k p s) (hname : t.self.name = s.self.name)
    (hnext : t.self.nextIndex = s.self.nextIndex) (hmade : t.host.disk.made = s.host.disk.made) :
    Tally s₀ k p t := by
  obtain ⟨taken, hle, numbers, hn, hspent⟩ := h
  exact ⟨taken, hle, numbers, ⟨hname.trans hn.name, hnext.trans hn.next, hmade ▸ hn.made, hn.rising,
    hn.bounds, hn.small⟩, hspent⟩

theorem Takes.add (h : Takes j Q task) (hf : ∀ a, Q a → Takes k R (f a)) :
    Takes (j + k) R (task >>= f) := by
  intro s₀ i
  refine Ensures.bind ((h s₀ i).mono (fun _ hs => hs) (fun _ _ hs => hs) fun e s hs => ?_) fun a => ?_
  · exact hs.mono (by omega) id
  · intro s hs
    rw [← Nat.add_assoc]
    exact hf a hs.2 s₀ (i + j) s hs.1

theorem Takes.then (h : Takes 0 Q task) (hf : ∀ a, Q a → Takes k R (f a)) :
    Takes k R (task >>= f) := by
  have hadd := h.add hf
  rwa [Nat.zero_add] at hadd

theorem Takes.pure {a : α} (h : Q a) : Takes k Q (Pure.pure a : ArchiveTask α) :=
  fun _ _ => Ensures.pure fun _ hs => ⟨hs.mono (Nat.le_add_right ..) id, h⟩

theorem Takes.throw {e : ArchiveError} (h : e ≠ .indicesExhausted) :
    Takes k Q (MonadExcept.throw e : ArchiveTask α) :=
  fun _ _ => Ensures.throw fun _ hs => hs.mono (Nat.le_add_right ..) fun he => h he

theorem Takes.get {f : Hosted Archive → ArchiveTask β} (hf : ∀ s, Takes k R (f s)) :
    Takes k R (MonadState.get >>= f) := by
  intro s₀ i
  refine Ensures.get fun s hs => (hf s s₀ i).mono ?_ (fun _ _ ht => ht) fun _ _ ht => ht
  rintro t rfl
  exact hs

theorem Takes.ofExcept {ε : Type} {wrap : ε → ArchiveError} {r : Except ε α}
    (h : ∀ e, r = .error e → wrap e ≠ .indicesExhausted) :
    Takes 0 (fun _ => True) (Task.ofExcept wrap r) := by
  cases r with
  | ok a => exact Takes.pure trivial
  | error e => exact Takes.throw (h e rfl)

theorem Takes.error_ne (h : Takes 0 Q task) {e : ArchiveError} (hrun : task s = (.error e, t)) :
    e ≠ .indicesExhausted := by
  rcases (h s 0).run (Tally.refl s) hrun with ⟨a, ha, -⟩ | ⟨e', he, ht⟩
  · cases ha
  · cases he
    rintro rfl
    obtain ⟨taken, hle, -, -, hspent⟩ := ht
    obtain ⟨n, hn, hlt, -⟩ := hspent rfl
    omega

theorem Takes.abides (h : Takes 0 Q task) (s₀ : Hosted Archive) (j : Nat) :
    Abides (Tally s₀ j False) (· ≠ .indicesExhausted) task := by
  intro s hs
  rcases hgo : task s with ⟨r, t⟩
  rcases (h s₀ j).run hs hgo with ⟨a, rfl, ht, -⟩ | ⟨e, rfl, ht⟩
  · exact ht
  · exact ⟨ht.mono (Nat.le_refl _) False.elim, h.error_ne hgo⟩

theorem Takes.of_abides (h : ∀ s₀ j, Abides (Tally s₀ j False) (· ≠ .indicesExhausted) task) :
    Takes 0 (fun _ => True) task :=
  fun s₀ j => (h s₀ j).mono (fun _ hs => hs) (fun _ _ hs => ⟨hs, trivial⟩) fun _ _ hs =>
    hs.1.mono (Nat.le_refl _) hs.2

theorem Takes.attempt (h : Takes 0 Q task) :
    Takes 0 (· ≠ .error .indicesExhausted)
      (Task.attempt task : ArchiveTask (Except ArchiveError α)) := by
  intro s₀ i
  refine (Ensures.attempt (h.abides s₀ i)).mono (fun _ hs => hs) (fun r s hs => ?_) fun _ _ hs => hs
  cases r with
  | ok a => exact ⟨hs.1 a rfl, nofun⟩
  | error e => exact ⟨(hs.2 e rfl).1, fun he => (hs.2 e rfl).2 (Except.error.inj he)⟩

theorem takes_update {f : Archive → Archive}
    (hf : ∀ a, (f a).name = a.name ∧ (f a).nextIndex = a.nextIndex) :
    Takes 0 (fun _ => True) (update f) :=
  fun _ _ => Ensures.modify fun s hs => ⟨hs.same (hf s.self).1 (hf s.self).2 rfl, trivial⟩

theorem takes_count (f : ArchiveCounts → ArchiveCounts) : Takes 0 (fun _ => True) (count f) :=
  takes_update fun _ => ⟨rfl, rfl⟩

theorem takes_report (event : Event) :
    Takes 0 (fun _ => True) (report event : ArchiveTask Unit) :=
  fun _ _ _ hs => ⟨hs.same rfl rfl rfl, trivial⟩

theorem takes_onDisk {task : DiskTask β} (h : ∀ d, (task d).2.made = d.made) :
    Takes 0 (fun _ => True) (onDisk task) := by
  intro s₀ i s hs
  have hmade := h s.host.disk
  rw [onDisk_run]
  rcases hrun : task s.host.disk with ⟨_ | b, d⟩
  · rw [hrun] at hmade
    exact (hs.same (t := s.withDisk d) rfl rfl hmade).mono (Nat.le_refl _) nofun
  · rw [hrun] at hmade
    exact ⟨hs.same (t := s.withDisk d) rfl rfl hmade, trivial⟩

theorem takes_append (x : Segment) (offset : Nat) (r : Record) :
    Takes 0 (fun _ => True) (onDisk (x.append offset r)) :=
  takes_onDisk fun d => (Disk.made_changed d _).trans (List.append_nil _)

theorem takes_syncDirectory : Takes 0 (fun _ => True) syncDirectory :=
  Takes.get fun s => takes_onDisk (Disk.made_quiet (Disk.quiet_sync s.self.directory))

/-- The one who takes a number creates the file of that index, if any. -/
theorem takes_createSegment : Takes 1 (fun _ => True) createSegment := by
  rintro s₀ i s ⟨taken, hle, numbers, hn, -⟩
  have hindex : s.self.nextIndex.toNat =
      (s₀.self.nextIndex.toNat + taken) % 0x100000000 := by
    rw [hn.next, UInt32.toNat_ofNat']
  have hnext : s.self.nextIndex + 1 = UInt32.ofNat (s₀.self.nextIndex.toNat + (taken + 1)) := by
    rw [hn.next, ← Nat.add_assoc, UInt32.ofNat_add _ 1]
    rfl
  have hbounds : ∀ n ∈ numbers, s₀.self.nextIndex.toNat ≤ n ∧
      n < s₀.self.nextIndex.toNat + (taken + 1) := fun n hm =>
    ⟨(hn.bounds n hm).1, Nat.lt_succ_of_lt (hn.bounds n hm).2⟩
  rcases createSegment_cases s with ⟨e, s', hrun, hself, hdisk, hex⟩ |
    ⟨trail, file, s', hmax, ht, -, hrun, hself, hdisk⟩
  · rw [hrun]
    refine ⟨taken + 1, Nat.succ_le_succ hle, numbers, ⟨?_, ?_, ?_, hn.rising, hbounds, hn.small⟩,
      fun he => ⟨s₀.self.nextIndex.toNat + taken, by omega, by omega, hindex ▸ hex.mp he⟩⟩
    · rw [hself]
      exact hn.name
    · rw [hself]
      exact hnext
    · rw [hdisk]
      exact hn.made
  · rw [hrun]
    obtain ⟨new, hnew, hspells⟩ := hn.made
    refine ⟨⟨taken + 1, Nat.succ_le_succ hle, numbers ++ [s₀.self.nextIndex.toNat + taken],
      ⟨?_, ?_, ⟨new ++ [Trail.place trail file], ?_, ?_⟩, ?_, ?_, ?_⟩, False.elim⟩, trivial⟩
    · rw [hself]
      exact hn.name
    · rw [hself]
      exact hnext
    · rw [hdisk, Disk.made_created, hnew, List.append_assoc]
    · refine List.rel_append hspells (.cons ?_ .nil)
      rw [← hn.next]
      rw [pathOf, hn.name] at ht
      refine ⟨(target_ending ht).2, fun hplain => ?_⟩
      obtain ⟨_, -, heq⟩ := target_join (SegmentName.plain_ofIndex hplain _)
        (SegmentName.index?_ofIndex s₀.self.name _) ht
      cases heq
      rfl
    · rw [List.pairwise_append]
      refine ⟨hn.rising, List.pairwise_singleton _ _, fun n hm m hlast => ?_⟩
      rw [List.mem_singleton.mp hlast]
      exact (hn.bounds n hm).2
    · intro n hm
      rcases List.mem_append.mp hm with hm | hm
      · exact hbounds n hm
      · rw [List.mem_singleton.mp hm]
        omega
    · intro n hm
      rcases List.mem_append.mp hm with hm | hm
      · exact hn.small n hm
      · rw [List.mem_singleton.mp hm, ← hindex]
        exact hmax

theorem takes_removeSegment (x : Segment) : Takes 0 (fun _ => True) (removeSegment x) := by
  have hremove : Takes 0 (fun _ => True) (onDisk (Disk.unlinkIfPresent x.path)) :=
    takes_onDisk (Disk.made_unlinkIfPresent x.path)
  refine Takes.get fun s => ?_
  dsimp only
  split
  · refine Takes.then (Q := fun _ => True) ?_ fun _ _ => (takes_count _).then fun _ _ => hremove
    exact takes_update fun _ => ⟨rfl, rfl⟩
  · exact hremove

theorem takes_finishSegment (x : Segment) (f : Footer) : Takes 0 (fun _ => True) (finishSegment x f) := by
  refine (takes_onDisk fun d => ?_).then fun _ _ => takes_update fun _ => ⟨rfl, rfl⟩
  exact (Disk.made_changed d _).trans (List.append_nil _)

theorem takes_startWriting : Takes 1 (fun _ => True) startWriting := by
  refine Takes.get fun s => ?_
  split
  · exact Takes.throw (by nofun)
  · exact takes_createSegment.add (k := 0) fun x _ => (takes_report _).then fun _ _ =>
      takes_update fun _ => ⟨rfl, rfl⟩

theorem takes_locationOf (x : Segment) (offset : Nat) :
    Takes 0 (fun _ => True) (Task.ofExcept id (x.locationOf offset) : ArchiveTask Int64) :=
  Takes.ofExcept fun e he => by
    rw [id, Segment.locationOf_error he]
    nofun

theorem takes_store (r : Record) : Takes 0 (fun _ => True) (store r) := by
  refine Takes.get fun s => ?_
  split
  · exact Takes.throw (by nofun)
  · dsimp only
    split
    · exact Takes.throw (by nofun)
    · refine (takes_locationOf _ _).then fun location _ => ?_
      split
      · exact Takes.throw (by nofun)
      · refine (takes_append _ _ _).then fun _ _ => Takes.then (Q := fun _ => True) ?_ fun _ _ =>
          (takes_count _).then fun _ _ => (takes_report _).then fun _ _ => Takes.pure trivial
        exact takes_update fun _ => ⟨rfl, rfl⟩

theorem takes_endWriting (minKey maxKey : Int64) :
    Takes 0 (fun _ => True) (endWriting minKey maxKey) := by
  refine Takes.get fun s => ?_
  split
  · exact Takes.throw (by nofun)
  · refine Takes.then (Q := fun _ => True) ?_ fun _ _ => Takes.get fun _ =>
      (takes_finishSegment _ _).then fun _ _ => takes_syncDirectory.then fun _ _ => takes_report _
    exact takes_update fun _ => ⟨rfl, rfl⟩

theorem takes_readInto (location : Int64) (part : Part) (buffer : Bytes) :
    Takes 0 (fun _ => True) (readInto location part buffer) := by
  refine Takes.get fun s => Takes.then (Q := fun _ => True) (Takes.ofExcept fun e he => ?_)
    fun _ _ => (takes_count _).then fun _ _ => Takes.pure trivial
  rintro rfl
  exact fetch_ne_exhausted _ _ _ _ _ he

theorem takes_fillOutput (output : Segment) (newest : Footer) (mergedFrom : UInt64)
    (inputs : List Segment) :
    Takes 0 (fun _ => True) (fillOutput output newest mergedFrom inputs) := by
  refine Takes.of_abides fun s₀ j => ?_
  have hcopying : Copying (Tally s₀ j False) (· ≠ .indicesExhausted) output :=
    ⟨fun offset r => (takes_append output offset r).abides s₀ j, nofun, fun e he hex => nomatch hex ▸ he⟩
  exact hcopying.fillOutput (fun f => (takes_finishSegment output f).abides s₀ j) _ _ _

theorem takes_mergeRun (run : List Segment) (newest : Footer) :
    Takes 1 (fun _ => True) (mergeRun run newest) := by
  refine takes_createSegment.add (k := 0) fun output _ => (takes_report _).then fun _ _ =>
    (takes_fillOutput _ _ _ _).attempt.then fun r hr => ?_
  split
  · exact Takes.throw (by nofun)
  · rename_i e _
    exact (takes_removeSegment output).then fun _ _ => Takes.throw fun he => hr (he ▸ rfl)
  · split
    · exact (takes_removeSegment output).then fun _ _ => Takes.pure trivial
    · exact takes_syncDirectory.then fun _ _ => Takes.pure trivial

theorem takes_prepareMerge (files : List Segment) :
    Takes 1 (fun _ => True) (prepareMerge files) := by
  refine Takes.get fun s => ?_
  dsimp only
  split
  · exact Takes.pure trivial
  · split
    · exact Takes.throw (by nofun)
    · split
      · exact Takes.pure trivial
      · exact (takes_mergeRun _ _).add (k := 0) fun m _ => Takes.pure trivial

theorem takes_removeSegments (inputs : List Segment) :
    Takes 0 (fun _ => True) (removeSegments inputs) := by
  induction inputs with
  | nil => exact Takes.pure trivial
  | cons x rest ih => exact (takes_removeSegment x).then fun _ _ => ih

theorem takes_concludeMerge (m : Merge) : Takes 0 (fun _ => True) (concludeMerge m) :=
  takes_syncDirectory.then fun _ _ => (takes_count _).then fun _ _ => takes_report _

theorem takes_merge {publish : List Relocation → ArchiveTask Unit}
    (hp : ∀ moves, Takes k (fun _ => True) (publish moves)) (files : List Segment) :
    Takes (1 + k) (fun _ => True) (merge publish files) := by
  refine (takes_prepareMerge files).add fun m _ => ?_
  cases m with
  | none => exact Takes.pure trivial
  | some m =>
      exact (hp _).add (k := 0) fun _ _ => (takes_removeSegments _).then fun _ _ => takes_concludeMerge m

inductive Ask
  | start
  | store (r : Record)
  | finish (minKey maxKey : Int64)
  | read (location : Int64) (part : Part) (buffer : Bytes)

def Ask.run : Ask → ArchiveTask Unit
  | start => startWriting
  | store r => do let _ ← Archive.store r
  | finish minKey maxKey => endWriting minKey maxKey
  | read location part buffer => do let _ ← readInto location part buffer

def Ask.runAll : List Ask → ArchiveTask Unit
  | [] => return ()
  | ask :: asks => do
    let _ ← ask.run.attempt
    runAll asks

def Ask.cost : Ask → Nat
  | start => 1
  | _ => 0

inductive Call
  | ask (ask : Ask)
  /-- While the merge tells its moves, other things are asked. -/
  | merge (files : List Segment) (asks : List Ask)
  | wait (clock : UInt64)

def Call.run : Call → ArchiveTask Unit
  | ask a => a.run
  | merge files asks => Archive.merge (fun _ => Ask.runAll asks) files
  | wait clock => modify fun s => { s with host := { s.host with clock := clock } }

def Call.cost : Call → Nat
  | ask a => a.cost
  | merge _ asks => 1 + (asks.map Ask.cost).sum
  | wait _ => 0

def serve (calls : List Call) (s : Hosted Archive) : Hosted Archive :=
  calls.foldl (fun s c => (c.run s).2) s

theorem takes_ask (a : Ask) : Takes a.cost (fun _ => True) a.run := by
  cases a with
  | start => exact takes_startWriting
  | store r => exact (takes_store r).then fun _ _ => Takes.pure trivial
  | finish minKey maxKey => exact takes_endWriting minKey maxKey
  | read location part buffer =>
      exact (takes_readInto location part buffer).then fun _ _ => Takes.pure trivial

theorem Takes.tried (h : Takes k Q task) :
    Takes k (fun _ => True) (Task.attempt task : ArchiveTask (Except ArchiveError α)) := by
  intro s₀ i s hs
  rw [Task.attempt_run]
  rcases hgo : task s with ⟨r, t⟩
  rcases (h s₀ i).run hs hgo with ⟨a, rfl, ht, -⟩ | ⟨e, rfl, ht⟩
  · exact ⟨ht, trivial⟩
  · exact ⟨ht.mono (Nat.le_refl _) False.elim, trivial⟩

theorem takes_runAll (asks : List Ask) :
    Takes (asks.map Ask.cost).sum (fun _ => True) (Ask.runAll asks) := by
  induction asks with
  | nil => exact Takes.pure trivial
  | cons a asks ih =>
      rw [List.map_cons, List.sum_cons]
      exact (takes_ask a).tried.add fun _ _ => ih

theorem takes_call (c : Call) : Takes c.cost (fun _ => True) c.run := by
  cases c with
  | ask a => exact takes_ask a
  | merge files asks => exact takes_merge (fun _ => takes_runAll asks) files
  | wait clock => exact fun _ _ _ hs => ⟨hs.same rfl rfl rfl, trivial⟩

theorem Tally.call (h : Tally s₀ k False s) (c : Call) : Tally s₀ (k + c.cost) False (c.run s).2 := by
  rcases hgo : c.run s with ⟨r, t⟩
  rcases (takes_call c s₀ k).run h hgo with ⟨_, -, ht, -⟩ | ⟨e, -, ht⟩
  · exact ht
  · exact ht.mono (Nat.le_refl _) False.elim

theorem Tally.serve (h : Tally s₀ k False s) (calls : List Call) :
    Tally s₀ (k + (calls.map Call.cost).sum) False (Archive.serve calls s) := by
  induction calls generalizing k s with
  | nil => exact h
  | cons c calls ih =>
      rw [List.map_cons, List.sum_cons, ← Nat.add_assoc]
      exact ih (h.call c)

/-- Numbers too great for an index create nothing. -/
theorem Tally.nothing_made (h : Tally s k p t)
    (hk : s.self.nextIndex.toNat + k ≤ 0x100000000)
    (hmax : k = 0 ∨ Location.maxSegments ≤ s.self.nextIndex.toNat) :
    t.host.disk.made = s.host.disk.made := by
  obtain ⟨taken, hle, numbers, hn, -⟩ := h
  obtain ⟨new, hmade, hspells⟩ := hn.made
  have hnone : numbers = [] := by
    refine List.eq_nil_iff_forall_not_mem.mpr fun n hm => ?_
    have hbounds := hn.bounds n hm
    have hsmall := hn.small n hm
    rw [Nat.mod_eq_of_lt (by omega)] at hsmall
    omega
  rw [hnone] at hspells
  rw [hmade, List.forall₂_nil_right_iff.mp hspells, List.append_nil]

theorem Tally.next_le (h : Tally s k p t) :
    t.self.nextIndex.toNat ≤ s.self.nextIndex.toNat + k := by
  obtain ⟨taken, hle, numbers, hn, -⟩ := h
  rw [hn.next, UInt32.toNat_ofNat']
  have := Nat.mod_le (s.self.nextIndex.toNat + taken) (2 ^ 32)
  omega

/-- Where the indices are exhausted, so is the counter, up to its last number. -/
theorem Tally.spent (h : Tally s k True t) (hk : s.self.nextIndex.toNat + k ≤ 0x100000000) :
    s.self.nextIndex.toNat + k = 0x100000000 ∨ Location.maxSegments ≤ t.self.nextIndex.toNat := by
  obtain ⟨taken, hle, numbers, hn, hspent⟩ := h
  obtain ⟨n, hfirst, hlast, hmax⟩ := hspent trivial
  rw [Nat.mod_eq_of_lt (by omega)] at hmax
  rw [hn.next, UInt32.toNat_ofNat']
  by_cases hlt : s.self.nextIndex.toNat + taken < 0x100000000
  · rw [Nat.mod_eq_of_lt hlt]
    omega
  · omega

theorem Tally.made_rising (h : Tally s k p t) (hk : s.self.nextIndex.toNat + k ≤ 0x100000000) :
    ∃ new made, t.host.disk.made = s.host.disk.made ++ new ∧
      List.Forall₂ (fun p i => p.Spells s.self.name i) new made ∧ made.Pairwise (· < ·) ∧
      ∀ i ∈ made, s.self.nextIndex ≤ i := by
  obtain ⟨taken, hle, numbers, hn, -⟩ := h
  obtain ⟨new, hmade, hspells⟩ := hn.made
  have hlt : ∀ n ∈ numbers, (UInt32.ofNat n).toNat = n := fun n hm => by
    rw [UInt32.toNat_ofNat', Nat.mod_eq_of_lt]
    have := hn.bounds n hm
    omega
  refine ⟨new, numbers.map UInt32.ofNat, hmade, List.forall₂_map_right_iff.mpr hspells,
    List.pairwise_map.mpr (hn.rising.imp_of_mem fun hm hm' h => ?_), fun i hi => ?_⟩
  · rw [UInt32.lt_iff_toNat_lt, hlt _ hm, hlt _ hm']
    exact h
  · obtain ⟨n, hm, rfl⟩ := List.mem_map.mp hi
    rw [UInt32.le_iff_toNat_le, hlt n hm]
    exact (hn.bounds n hm).1

variable {directory : Path} {name : String} {host host' : Host} {a : Archive}

theorem findSegments_bounds {files : List (String × Node)} {found found' : Found}
    (hgo : findSegments directory name files found host = (.ok found', host')) :
    ∀ f ∈ ListedFile.all name files, f.index.toNat + 1 < 0x100000000 := by
  induction files generalizing found host with
  | nil => nofun
  | cons e files ih =>
      obtain ⟨file, node⟩ := e
      cases node with
      | directory number => exact ih hgo
      | file slot =>
          unfold findSegments at hgo
          cases hi : SegmentName.index? name file with
          | none =>
              rw [hi] at hgo
              rw [ListedFile.all_cons_other hi]
              exact ih hgo
          | some index =>
              rw [hi] at hgo
              obtain ⟨mid, _, hfind, hgo⟩ := Task.of_bind_ok hgo
              have hindex : index.toNat + 1 < 0x100000000 := by
                have hlt := index.toNat_lt
                have hne : index.toNat + 1 ≠ 0x100000000 := fun he => by
                  rw [findSegment, if_pos he] at hfind
                  cases hfind
                omega
              rw [ListedFile.all_cons_file hi]
              exact List.forall_mem_cons.mpr ⟨hindex, ih hgo⟩

theorem ListedFile.le_next (k : Nat) (fs : List ListedFile) :
    k ≤ ListedFile.next k fs ∧ ∀ f ∈ fs, f.index.toNat < ListedFile.next k fs := by
  induction fs generalizing k with
  | nil => exact ⟨Nat.le_refl _, nofun⟩
  | cons g fs ih =>
      have hrest := ih (max k (g.index.toNat + 1))
      rw [show ListedFile.next k (g :: fs) = ListedFile.next (max k (g.index.toNat + 1)) fs from rfl]
      refine ⟨by omega, fun f hf => ?_⟩
      rcases List.mem_cons.mp hf with rfl | hf
      · omega
      · exact hrest.2 f hf

theorem ListedFile.next_lt {k bound : Nat} {fs : List ListedFile} (hk : k < bound)
    (hfs : ∀ f ∈ fs, f.index.toNat + 1 < bound) : ListedFile.next k fs < bound := by
  induction fs generalizing k with
  | nil => exact hk
  | cons g fs ih =>
      refine ih (k := max k (g.index.toNat + 1)) ?_ fun f hf => hfs f (List.mem_cons_of_mem _ hf)
      have := hfs g (List.mem_cons_self ..)
      omega

/-- An archive that has been opened counts on from the files that were there. -/
theorem init_present (hinit : init directory name host = (.ok a, host')) {n : Nat}
    (hfind : host.disk.find directory = .ok (some (.directory n))) {f : ListedFile}
    (hf : f ∈ ListedFile.all name (host.disk.entries n)) : f.index < a.nextIndex := by
  obtain ⟨files, d, found, h, h', hlist, hfound, -, hnext⟩ := init_found hinit
  rw [Task.bind_ok (Disk.makeDirectories_run hfind), Disk.list_run hfind] at hlist
  cases hlist
  have hbounds := findSegments_bounds hfound
  rw [findSegments_next hfound] at hnext
  rw [UInt32.lt_iff_toNat_lt, hnext, UInt32.toNat_ofNat',
    Nat.mod_eq_of_lt (ListedFile.next_lt (by decide) hbounds)]
  exact (ListedFile.le_next 0 _).2 f hf

/--
As long as the counter has not run over, the files that an archive creates, in whatever calls and
whatever came of these, have rising indices, all greater than those of the files that were there when
it was opened. Once the indices are exhausted no file is created.
-/
theorem serve_made_rising (hinit : init directory name host = (.ok a, host')) (calls : List Call)
    (hk : a.nextIndex.toNat + (calls.map Call.cost).sum ≤ 0x100000000) :
    (∃ new made, (serve calls ⟨a, host'⟩).host.disk.made = host'.disk.made ++ new ∧
      List.Forall₂ (fun p i => p.Spells name i) new made ∧ made.Pairwise (· < ·) ∧
      ∀ i ∈ made, ∀ n, host.disk.find directory = .ok (some (.directory n)) →
        ∀ f ∈ ListedFile.all name (host.disk.entries n), f.index < i) ∧
    ∀ before c after, calls = before ++ c :: after →
      ((c.run (serve before ⟨a, host'⟩)).1 = .error .indicesExhausted →
        (serve calls ⟨a, host'⟩).host.disk.made =
          (c.run (serve before ⟨a, host'⟩)).2.host.disk.made) ∧
      (Location.maxSegments ≤ (serve before ⟨a, host'⟩).self.nextIndex.toNat →
        (serve calls ⟨a, host'⟩).host.disk.made = (serve before ⟨a, host'⟩).host.disk.made) := by
  obtain ⟨-, -, -, -, -, -, -, hname, -⟩ := init_found hinit
  have hall := (Tally.refl ⟨a, host'⟩).serve calls
  rw [Nat.zero_add] at hall
  refine ⟨?_, ?_⟩
  · obtain ⟨new, made, hmade, hspells, hrising, hle⟩ := hall.made_rising hk
    refine ⟨new, made, hmade, hname ▸ hspells, hrising, fun i hi n hn f hf => ?_⟩
    exact UInt32.lt_of_lt_of_le (init_present hinit hn hf) (hle i hi)
  · rintro before c after rfl
    rw [List.map_append, List.sum_append, List.map_cons, List.sum_cons] at hk
    have hbefore := (Tally.refl ⟨a, host'⟩).serve before
    rw [Nat.zero_add] at hbefore
    have hstart := hbefore.next_le
    have hserve : serve (before ++ c :: after) ⟨a, host'⟩ =
        serve after (c.run (serve before ⟨a, host'⟩)).2 := by
      rw [serve, List.foldl_append]
      rfl
    generalize hs : serve before ⟨a, host'⟩ = s at *
    have hafter := (Tally.refl (c.run s).2).serve after
    rw [Nat.zero_add, ← hserve] at hafter
    refine ⟨fun herror => ?_, fun hmax => ?_⟩
    · rcases hgo : c.run s with ⟨r, t⟩
      rw [hgo] at herror hafter
      rcases (takes_call c s 0).run (Tally.refl s) hgo with ⟨_, rfl, -⟩ | ⟨e, rfl, ht⟩
      · cases herror
      · cases herror
        rw [Nat.zero_add] at ht
        have hnext := ht.next_le
        refine hafter.nothing_made ?_ ?_
        · simp only at hstart ⊢
          omega
        · rcases (ht.mono (Nat.le_refl _) fun _ => rfl).spent (by simp only at hstart; omega) with
            hspent | hspent
          · exact .inl (by simp only at hstart; omega)
          · exact .inr hspent
    · have hrest := (Tally.refl s).serve (c :: after)
      rw [Nat.zero_add, List.map_cons, List.sum_cons] at hrest
      rw [hserve]
      exact hrest.nothing_made (by simp only at hstart; omega) (.inr hmax)

def strayed (file : String) : Host where
  disk := { directories := #[[(file, .file 0)]], contents := [[1]] }
  clock := 0

theorem exists_init_strayed (file : String) (P : Hosted Archive → Prop) [DecidablePred P]
    (h : (match init [] "x" (strayed file) with
      | (.ok a, host') => decide (P ⟨a, host'⟩)
      | (.error _, _) => false) = true) :
    ∃ a host', init [] "x" (strayed file) = (.ok a, host') ∧ P ⟨a, host'⟩ := by
  split at h
  · rename_i a host' hinit
    exact ⟨a, host', hinit, of_decide_eq_true h⟩
  · cases h

/-- Only one index is left beside that of a stray file: after one session none can be started. -/
theorem made_rising_to_the_end :
    ∃ a host' p i, init [] "x" (strayed "x_8388605.dat") = (.ok a, host') ∧
      (startWriting (serve [.ask .start, .ask (.finish 0 10)] ⟨a, host'⟩)).1 =
        .error .indicesExhausted ∧
      (serve [.ask .start, .ask (.finish 0 10), .ask .start, .ask .start] ⟨a, host'⟩).host.disk.made =
        [p] ∧ p.Spells "x" i ∧ 8388605 < i := by
  obtain ⟨a, host', hinit, hnext, hnone, hone, herror⟩ := exists_init_strayed "x_8388605.dat"
    (fun s => s.self.nextIndex = 8388606 ∧ s.host.disk.made = [] ∧
      (startWriting (serve [.ask .start, .ask (.finish 0 10)] s)).2.host.disk.made.length = 1 ∧
      (startWriting (serve [.ask .start, .ask (.finish 0 10)] s)).1 = .error .indicesExhausted)
    (by decide +kernel)
  have hk : a.nextIndex.toNat + 3 ≤ 0x100000000 := by
    simp only at hnext
    rw [hnext]
    decide
  obtain ⟨⟨new, made, hmade, hspells, -, hnewer⟩, hend⟩ := serve_made_rising hinit
    [.ask .start, .ask (.finish 0 10), .ask .start, .ask .start] hk
  have hlast := (hend [.ask .start, .ask (.finish 0 10)] (.ask .start) [.ask .start] rfl).1 herror
  simp only at hnone
  rw [hnone, List.nil_append] at hmade
  have hlength : new.length = 1 := by
    rw [← hmade, hlast]
    exact hone
  obtain ⟨p, rfl⟩ := List.length_eq_one_iff.mp hlength
  obtain ⟨i, rest, hp, -, rfl⟩ := List.forall₂_cons_left_iff.mp hspells
  refine ⟨a, host', p, i, hinit, herror, hmade, hp, ?_⟩
  exact hnewer i (List.mem_cons_self ..) 0 rfl ⟨"x_8388605.dat", 0, 8388605⟩ (by decide +kernel)

/--
A counter that runs over begins again: after a session that could not be started the next one creates
the file of index 0, though there was one of index 4294967294.
-/
theorem made_again_after_run_over :
    ∃ a host', init [] "x" (strayed "x_4294967294.dat") = (.ok a, host') ∧
      (startWriting ⟨a, host'⟩).1 = .error .indicesExhausted ∧ host'.disk.made = [] ∧
      (serve [.ask .start, .ask .start] ⟨a, host'⟩).host.disk.made = [⟨0, "x_00000000.dat"⟩] :=
  exists_init_strayed _ (fun s => (startWriting s).1 = .error .indicesExhausted ∧
    s.host.disk.made = [] ∧
    (serve [.ask .start, .ask .start] s).host.disk.made = [⟨0, "x_00000000.dat"⟩]) (by decide +kernel)

end Archive

end MeteredStorage
