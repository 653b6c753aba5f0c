import MeteredStorage.Proofs.Archive.Numbering
import MeteredStorage.Proofs.Archive.Owning
import MeteredStorage.Proofs.Archive.Tending

namespace MeteredStorage

open MeteredStorage.Task (Abides Ensures Upholds)

theorem Task.Upholds.plain {σ ε α : Type} {I : σ → Prop} {Q : α → Prop} {task : Task σ ε α}
    (h : Upholds I Q task) : Ensures I (fun _ => I) (fun _ => I) task :=
  Ensures.mono h (fun _ hs => hs) (fun _ _ hs => hs.1) fun _ _ hs => hs

namespace Archive

open Hosted

structure Counted (reads writes merges : Nat) (s : Hosted Archive) : Prop where
  nodup : (s.self.segments.map Segment.index).Nodup
  below : ∀ x ∈ s.self.segments, x.index < s.self.nextIndex
  counts : s.self.counts = ⟨s.self.segments.length, reads, writes, merges⟩

variable {reads writes merges : Nat} {s s₀ t : Hosted Archive} {α β : Type} {x : Segment}
  {files inputs : List Segment}

theorem Counted.same (h : Counted reads writes merges s)
    (hindices : t.self.segments.map Segment.index = s.self.segments.map Segment.index)
    (hnext : t.self.nextIndex = s.self.nextIndex) (hcounts : t.self.counts = s.self.counts) :
    Counted reads writes merges t := by
  have hlength : t.self.segments.length = s.self.segments.length := by
    simpa using congrArg List.length hindices
  refine ⟨hindices ▸ h.nodup, fun x hx => ?_, by rw [hcounts, hlength, h.counts]⟩
  obtain ⟨y, hy, hindex⟩ := List.mem_map.mp (hindices ▸ List.mem_map_of_mem hx)
  rw [← hindex, hnext]
  exact h.below y hy

theorem counted_update {f : Archive → Archive}
    (hf : ∀ a, (f a).segments.map Segment.index = a.segments.map Segment.index ∧
      (f a).nextIndex = a.nextIndex ∧ (f a).counts = a.counts) :
    Upholds (Counted reads writes merges) (fun _ => True) (update f : ArchiveTask Unit) :=
  Ensures.modify fun s hs => ⟨hs.same (hf s.self).1 (hf s.self).2.1 (hf s.self).2.2, trivial⟩

theorem counted_report (event : Event) :
    Upholds (Counted reads writes merges) (fun _ => True) (report event : ArchiveTask Unit) :=
  fun _ hs => ⟨hs.same rfl rfl rfl, trivial⟩

theorem counted_onDisk (task : DiskTask α) :
    Upholds (Counted reads writes merges) (fun _ => True) (onDisk task) := by
  intro s hs
  rw [onDisk_run]
  rcases task s.host.disk with ⟨_ | b, d⟩
  · exact hs.same rfl rfl rfl
  · exact ⟨hs.same rfl rfl rfl, trivial⟩

theorem counted_syncDirectory : Upholds (Counted reads writes merges) (fun _ => True) syncDirectory :=
  Upholds.get fun _ _ => counted_onDisk _

theorem counted_finishSegment (x : Segment) (f : Footer) :
    Upholds (Counted reads writes merges) (fun _ => True) (finishSegment x f) := by
  refine (counted_onDisk _).then fun _ _ => counted_update fun a => ⟨?_, rfl, rfl⟩
  rw [List.map_map]
  refine List.map_congr_left fun y _ => ?_
  simp only [Function.comp_apply]
  split <;> rfl

theorem counted_endWriting (minKey maxKey : Int64) :
    Upholds (Counted reads writes merges) (fun _ => True) (endWriting minKey maxKey) := by
  refine Upholds.get fun s _ => ?_
  split
  · exact Upholds.throw _
  · refine Upholds.then (Q := fun _ => True) (counted_update fun _ => ⟨rfl, rfl, rfl⟩) fun _ _ =>
      Upholds.get fun _ _ => (counted_finishSegment _ _).then fun _ _ =>
        counted_syncDirectory.then fun _ _ => counted_report _

/-- A segment that is created has an index of its own, so that it takes no other's place. -/
theorem counted_createSegment :
    Ensures (Counted reads writes merges) (fun _ => Counted reads writes merges)
      (fun e s => e ≠ .indicesExhausted → Counted reads writes merges s) createSegment := by
  intro s hs
  have hrise (hmax : s.self.nextIndex.toNat < Location.maxSegments) :
      s.self.nextIndex < s.self.nextIndex + 1 := by
    rw [Location.maxSegments_eq] at hmax
    rw [UInt32.lt_iff_toNat_lt, UInt32.toNat_add, Nat.mod_eq_of_lt]
    · exact Nat.lt_succ_self _
    · simp only [UInt32.toNat_one]
      omega
  rcases createSegment_cases s with ⟨e, s', hrun, hself, -, hex⟩ |
    ⟨trail, file, s', hmax, -, -, hrun, hself, -⟩
  · rw [hrun]
    intro hne
    have hnext := hrise (Nat.lt_of_not_le fun hle => hne (hex.mpr hle))
    refine ⟨hself ▸ hs.nodup, fun x hx => ?_, hself ▸ hs.counts⟩
    rw [hself] at hx ⊢
    exact UInt32.lt_trans (hs.below x hx) hnext
  · rw [hrun]
    have hfresh : ∀ y ∈ s.self.segments, y.index ≠ s.self.nextIndex := fun y hy he =>
      UInt32.lt_irrefl _ (he ▸ hs.below y hy)
    refine ⟨?_, fun y hy => ?_, ?_⟩
    · rw [hself]
      exact nodup_enter hs.nodup _
    · rw [hself] at hy ⊢
      rcases mem_enter hy with rfl | hy
      · exact hrise hmax
      · exact UInt32.lt_trans (hs.below y hy) (hrise hmax)
    · rw [hself, entered, (enter_perm hfresh).length_eq, hs.counts]
      rfl

theorem length_without {a : Archive} (hnodup : (a.segments.map Segment.index).Nodup) {index : UInt32}
    (h : (a.segment? index).isSome) : (without a.segments index).length + 1 = a.segments.length := by
  have hmem : index ∈ a.segments.map Segment.index := by
    obtain ⟨x, hx⟩ := Option.isSome_iff_exists.mp h
    have hindex : x.index = index := by simpa using List.find?_some hx
    exact List.mem_map.mpr ⟨x, List.mem_of_find?_eq_some hx, hindex⟩
  have hindices : (without a.segments index).map Segment.index =
      (a.segments.map Segment.index).erase index := by
    rw [hnodup.erase_eq_filter, List.filter_map]
    rfl
  have hlength := congrArg List.length hindices
  have hpos := List.length_pos_of_mem hmem
  rw [List.length_erase_of_mem hmem] at hlength
  simp only [List.length_map] at hlength hpos
  omega

/-- A segment is struck out and counted off at most once, also if its file cannot be removed. -/
theorem counted_removeSegment (x : Segment) :
    Upholds (Counted reads writes merges) (fun _ => True) (removeSegment x) := by
  have hunlink : Upholds (Counted reads writes merges) (fun _ => True)
      (onDisk (Disk.unlinkIfPresent x.path)) := counted_onDisk _
  intro s hs
  by_cases hx : (s.self.segment? x.index).isSome
  · have hlength := length_without hs.nodup hx
    have hstruck : Counted reads writes merges { s with self := { s.self with
        segments := without s.self.segments x.index
        counts := { s.self.counts with segments := s.self.counts.segments - 1 } } } := by
      refine ⟨hs.nodup.sublist (List.filter_sublist.map _), fun y hy => ?_, ?_⟩
      · exact hs.below y (List.mem_filter.mp hy).1
      · simp only [hs.counts, ← hlength]
        simp
    have hrun := hunlink _ hstruck
    simp only [removeSegment, Task.bind_run, Task.get_run, hx, if_true, update_run, count_run]
    exact hrun
  · have hrun := hunlink _ hs
    simp only [removeSegment, Task.bind_run, Task.get_run, hx]
    exact hrun

/-- The task keeps the counts, unless it finds the indices exhausted. -/
def Counts (reads writes merges : Nat) (task : ArchiveTask α) : Prop :=
  Ensures (Counted reads writes merges) (fun _ => Counted reads writes merges)
    (fun e s => e ≠ .indicesExhausted → Counted reads writes merges s) task

theorem Counts.of_upholds {Q : α → Prop} {task : ArchiveTask α}
    (h : Upholds (Counted reads writes merges) Q task) : Counts reads writes merges task :=
  Ensures.mono h (fun _ hs => hs) (fun _ _ hs => hs.1) fun _ _ hs _ => hs

theorem Counts.pure (a : α) : Counts reads writes merges (Pure.pure a) :=
  .of_upholds (Upholds.pure (Q := fun _ => True) trivial)

theorem Counts.throw (e : ArchiveError) :
    Counts reads writes merges (MonadExcept.throw e : ArchiveTask α) :=
  .of_upholds (Upholds.throw (Q := fun _ => True) e)

theorem Counts.then {task : ArchiveTask α} {f : α → ArchiveTask β} (h : Counts reads writes merges task)
    (hf : ∀ a, Counts reads writes merges (f a)) : Counts reads writes merges (task >>= f) :=
  Ensures.bind h hf

theorem Counts.get {f : Hosted Archive → ArchiveTask β} (hf : ∀ s, Counts reads writes merges (f s)) :
    Counts reads writes merges (MonadState.get >>= f) :=
  Ensures.getThen fun s _ => hf s

theorem counts_startWriting : Counts reads writes merges startWriting := by
  refine Counts.get fun s => ?_
  split
  · exact Counts.throw _
  · exact Counts.then counted_createSegment fun x => .of_upholds <|
      (counted_report _).then fun _ _ => counted_update fun _ => ⟨rfl, rfl, rfl⟩

/-- A record is counted when it has been written. -/
theorem counted_store (r : Record) :
    Ensures (Counted reads writes merges) (fun _ => Counted reads (writes + 1) merges)
      (fun _ => Counted reads writes merges) (store r) := by
  refine Ensures.getThen fun s _ => ?_
  split
  · exact Ensures.throw fun _ hs => hs
  dsimp only
  split
  · exact Ensures.throw fun _ hs => hs
  refine Ensures.bind (Upholds.ofExcept id _).plain fun location => ?_
  split
  · exact Ensures.throw fun _ hs => hs
  refine Ensures.bind (counted_onDisk _).plain fun _ => ?_
  refine Ensures.bind (Upholds.plain (counted_update fun _ => ⟨rfl, rfl, rfl⟩)) fun _ => ?_
  exact fun t ht => ⟨ht.nodup, ht.below, by simp [ht.counts]⟩

theorem counted_readInto (location : Int64) (part : Part) (buffer : Bytes) :
    Ensures (Counted reads writes merges) (fun _ => Counted (reads + 1) writes merges)
      (fun _ => Counted reads writes merges) (readInto location part buffer) := by
  refine Ensures.getThen fun s _ => ?_
  refine Ensures.bind (Ensures.ofExcept (fun _ _ _ hs => hs) fun _ _ hs => hs) fun bytes => ?_
  exact fun t ht => ⟨ht.nodup, ht.below, by simp [ht.counts]⟩

theorem counts_mergeRun (run : List Segment) (newest : Footer) :
    Counts reads writes merges (mergeRun run newest) := by
  refine Counts.then counted_createSegment fun output => .of_upholds (Q := fun _ => True) ?_
  have hcopying : Copying (Counted reads writes merges) (fun _ => True) output :=
    ⟨fun offset r => (counted_onDisk _).abides, trivial, fun _ _ => trivial⟩
  have hfill (newest : Footer) (mergedFrom : UInt64) (inputs : List Segment) :=
    (hcopying.fillOutput (fun f => (counted_finishSegment output f).abides) newest mergedFrom inputs).upholds
  refine (counted_report _).then fun _ _ => (hfill _ _ _).attempt.then fun r _ => ?_
  split
  · exact Upholds.throw _
  · exact (counted_removeSegment output).then fun _ _ => Upholds.throw _
  · split
    · exact (counted_removeSegment output).then fun _ _ => Upholds.pure trivial
    · exact counted_syncDirectory.then fun _ _ => Upholds.pure trivial

theorem counts_prepareMerge (files : List Segment) : Counts reads writes merges (prepareMerge files) := by
  refine Counts.get fun s => ?_
  dsimp only
  split
  · exact Counts.pure _
  split
  · exact Counts.throw _
  split
  · exact Counts.pure _
  · exact (counts_mergeRun _ _).then fun m => Counts.pure _

theorem counted_removeSegments (inputs : List Segment) :
    Upholds (Counted reads writes merges) (fun _ => True) (removeSegments inputs) := by
  induction inputs with
  | nil => exact Upholds.pure trivial
  | cons x rest ih => exact (counted_removeSegment x).then fun _ _ => ih

theorem counted_finishMerge (m : Merge) :
    Ensures (Counted reads writes merges) (fun _ => Counted reads writes (merges + 1))
      (fun _ => Counted reads writes merges) (finishMerge m) := by
  refine Ensures.bind (counted_removeSegments m.inputs).plain fun _ => ?_
  refine Ensures.bind counted_syncDirectory.plain fun _ => ?_
  exact fun t ht => ⟨ht.nodup, ht.below, by simp [ht.counts]⟩

def stillCompleted (a : Archive) (files : List Segment) : List Segment :=
  files.filter fun x => x.isComplete && a.completed.any fun t => t.index == x.index && t.handle == x.handle

theorem mem_stillCompleted {a : Archive} {x : Segment} :
    x ∈ a.stillCompleted files ↔ (x ∈ files ∧ x.isComplete) ∧
      ∃ t ∈ a.completed, t.index = x.index ∧ t.handle = x.handle := by
  simp [stillCompleted, and_assoc]

theorem mem_mergeable {a : Archive} (hnodup : (a.segments.map Segment.index).Nodup) {x : Segment} :
    x ∈ a.mergeable files ↔ (x ∈ files ∧ x.isComplete) ∧
      ∃ t ∈ a.segments, t.index = x.index ∧ t.handle = x.handle := by
  simp only [mergeable, List.mem_filter, Bool.and_eq_true, Option.any_eq_true, beq_iff_eq, and_assoc]
  refine and_congr_right fun _ => and_congr_right fun _ => ⟨?_, ?_⟩
  · rintro ⟨t, ht, hhandle⟩
    exact ⟨t, List.mem_of_find?_eq_some ht, by simpa using List.find?_some ht, hhandle⟩
  · rintro ⟨t, ht, hindex, hhandle⟩
    exact ⟨t, hindex ▸ segment?_of_nodup hnodup ht, hhandle⟩

/-- A run is not empty if one of the inputs is among the completed segments. -/
theorem contiguousRun?_ne_nil_iff {completed inputs run : List Segment} (hinputs : inputs ≠ [])
    (h : contiguousRun? completed inputs = some run) :
    run ≠ [] ↔ ∃ x ∈ inputs, ∃ t ∈ completed, t.index = x.index := by
  have hpos := List.length_pos_iff.mpr hinputs
  simp only [contiguousRun?] at h
  generalize hpositions : (inputs.map fun x => completed.findIdx (·.index == x.index)) = positions at h
  have hleast : (completed.length :: positions).min? = some (positions.foldl min completed.length) :=
    List.min?_cons'
  generalize positions.foldl min completed.length = first at h hleast
  have hle := (List.min?_eq_some_iff.mp hleast).2
  split at h
  · rename_i hall
    cases h
    have hempty : (completed.drop first).take inputs.length ≠ [] ↔ first < completed.length := by
      rw [Ne, ← List.length_eq_zero_iff, List.length_take, List.length_drop]
      omega
    rw [hempty]
    constructor
    · intro hfirst
      have hmem : first ∈ positions := by
        have hin := List.all_eq_true.mp hall first (List.mem_range'_1.mpr (by omega))
        simpa using hin
      rw [← hpositions] at hmem
      obtain ⟨x, hx, hfind⟩ := List.mem_map.mp hmem
      refine ⟨x, hx, completed[first], List.getElem_mem _, ?_⟩
      have hlt : completed.findIdx (·.index == x.index) < completed.length := by omega
      have hget := @List.findIdx_getElem _ (·.index == x.index) completed hlt
      simpa [hfind] using hget
    · rintro ⟨x, hx, t, ht, hindex⟩
      have hlt : completed.findIdx (·.index == x.index) < completed.length :=
        List.findIdx_lt_length.mpr ⟨t, ht, by simp [hindex]⟩
      have hmem : completed.findIdx (·.index == x.index) ∈ positions := by
        rw [← hpositions]
        exact List.mem_map_of_mem hx
      exact Nat.lt_of_le_of_lt (hle _ (List.mem_cons_of_mem _ hmem)) hlt
  · cases h

theorem stillCompleted_ne_nil_iff {a : Archive} (hnodup : (a.segments.map Segment.index).Nodup) :
    a.stillCompleted files ≠ [] ↔ ∃ x ∈ a.mergeable files, ∃ t ∈ a.completed, t.index = x.index := by
  constructor
  · intro hne
    obtain ⟨x, hx⟩ := List.exists_mem_of_ne_nil _ hne
    obtain ⟨hcomplete, t, ht, hindex, hhandle⟩ := mem_stillCompleted.mp hx
    exact ⟨x, (mem_mergeable hnodup).mpr ⟨hcomplete, t, (mem_completed.mp ht).1, hindex, hhandle⟩,
      t, ht, hindex⟩
  · rintro ⟨x, hx, t, ht, hindex⟩
    obtain ⟨hcomplete, u, hu, huindex, hhandle⟩ := (mem_mergeable hnodup).mp hx
    have hsame : some u = some t := by
      rw [← segment?_of_nodup hnodup hu, ← segment?_of_nodup hnodup (mem_completed.mp ht).1, huindex, hindex]
    cases hsame
    exact List.ne_nil_of_mem (mem_stillCompleted.mpr ⟨hcomplete, t, ht, hindex, hhandle⟩)

/-- A merge is prepared exactly if one of the handles is of a segment that the archive still has. -/
theorem prepareMerge_isSome_iff {o : Option Merge} (hnodup : (s.self.segments.map Segment.index).Nodup)
    (hgo : prepareMerge files s = (.ok o, t)) : o.isSome ↔ s.self.stillCompleted files ≠ [] := by
  rw [stillCompleted_ne_nil_iff hnodup]
  rcases prepareMerge_choice files s with ⟨hempty, hnone⟩ | ⟨hempty, ⟨-, hthrow⟩ | ⟨run, hrun,
    ⟨hnewest, hnone⟩ | ⟨newest, hnewest, hsome⟩⟩⟩
  · cases hnone.symm.trans hgo
    simp [hempty]
  · cases hthrow.symm.trans hgo
  · cases hnone.symm.trans hgo
    rw [← contiguousRun?_ne_nil_iff hempty hrun]
    cases hlast : run.getLast? with
    | none => simpa using hlast
    | some y =>
        obtain ⟨first, rfl⟩ := contiguousRun?_eq hrun
        have hy := List.mem_of_mem_drop (List.mem_of_mem_take (List.mem_of_getLast? hlast))
        have hcomplete := (mem_completed.mp hy).2
        rw [hlast, Option.bind_some] at hnewest
        simp [Segment.isComplete, hnewest] at hcomplete
  · have hne : run ≠ [] := by
      rintro rfl
      cases hnewest
    rw [← contiguousRun?_ne_nil_iff hempty hrun]
    rw [hsome, Task.map_run] at hgo
    split at hgo
    · cases hgo
      simp [hne]
    · cases hgo

inductive Dealing
  | ask (ask : Ask) (outcome : Except ArchiveError Unit)
  | merge (inputs : List Segment) (outcome : Except ArchiveError Unit)

namespace Dealing

def outcome : Dealing → Except ArchiveError Unit
  | ask _ outcome => outcome
  | merge _ outcome => outcome

def isRead : Dealing → Bool
  | ask (.read ..) (.ok ()) => true
  | _ => false

def isStored : Dealing → Bool
  | ask (.store _) (.ok ()) => true
  | _ => false

def isMerged : Dealing → Bool
  | merge (_ :: _) (.ok ()) => true
  | _ => false

@[simp] theorem isMerged_error (inputs : List Segment) (e : ArchiveError) :
    (merge inputs (.error e)).isMerged = false := by
  cases inputs <;> rfl

end Dealing

/--
The archive `s₀` in the course of calls, also while a merge tells its moves, which was of the given inputs
and is not yet finished. Another merge has to wait until this one has ended.
-/
inductive Course (s₀ : Hosted Archive) :
    List Dealing → Option (List Segment × Merge) → Hosted Archive → Prop
  | opened : Course s₀ [] none s₀
  | asked {log : List Dealing} {pending : Option (List Segment × Merge)} {s t : Hosted Archive} {ask : Ask}
      {r : Except ArchiveError Unit} (h : Course s₀ log pending s) (hgo : ask.run s = (r, t)) :
      Course s₀ (log ++ [.ask ask r]) pending t
  | waited {log : List Dealing} {pending : Option (List Segment × Merge)} {s : Hosted Archive}
      (clock : UInt64) (h : Course s₀ log pending s) :
      Course s₀ log pending { s with host := { s.host with clock := clock } }
  | prepared {log : List Dealing} {s t : Hosted Archive} {files : List Segment} {m : Merge}
      (h : Course s₀ log none s) (hgo : prepareMerge files s = (.ok (some m), t)) :
      Course s₀ log (some (s.self.stillCompleted files, m)) t
  | passed {log : List Dealing} {s t : Hosted Archive} {files : List Segment}
      (h : Course s₀ log none s) (hgo : prepareMerge files s = (.ok none, t)) :
      Course s₀ (log ++ [.merge (s.self.stillCompleted files) (.ok ())]) none t
  | refused {log : List Dealing} {s t : Hosted Archive} {files : List Segment} {e : ArchiveError}
      (h : Course s₀ log none s) (hgo : prepareMerge files s = (.error e, t)) :
      Course s₀ (log ++ [.merge (s.self.stillCompleted files) (.error e)]) none t
  | finished {log : List Dealing} {inputs : List Segment} {m : Merge} {s t : Hosted Archive}
      {r : Except ArchiveError Unit} (h : Course s₀ log (some (inputs, m)) s)
      (hgo : finishMerge m s = (r, t)) : Course s₀ (log ++ [.merge inputs r]) none t
  /-- The one who is told the moves fails. -/
  | abandoned {log : List Dealing} {inputs : List Segment} {m : Merge} {s : Hosted Archive} {e : ArchiveError}
      (h : Course s₀ log (some (inputs, m)) s) : Course s₀ (log ++ [.merge inputs (.error e)]) none s

def Tallied (log : List Dealing) (s : Hosted Archive) : Prop :=
  Counted (log.countP Dealing.isRead) (log.countP Dealing.isStored) (log.countP Dealing.isMerged) s

variable {log : List Dealing} {pending : Option (List Segment × Merge)}

theorem Tallied.passed (h : Tallied log t) {d : Dealing} (hread : d.isRead = false)
    (hstored : d.isStored = false) (hmerged : d.isMerged = false) : Tallied (log ++ [d]) t := by
  simpa [Tallied, hread, hstored, hmerged] using h

theorem Tallied.asked (h : Tallied log s) {ask : Ask} {r : Except ArchiveError Unit}
    (hgo : ask.run s = (r, t)) (hne : r ≠ .error .indicesExhausted) :
    Tallied (log ++ [.ask ask r]) t := by
  cases ask with
  | start =>
      rcases counts_startWriting.run h hgo with ⟨_, rfl, ht⟩ | ⟨e, rfl, ht⟩
      · exact .passed ht rfl rfl rfl
      · exact .passed (ht fun he => hne (he ▸ rfl)) rfl rfl rfl
  | finish minKey maxKey =>
      rcases (counted_endWriting minKey maxKey).plain.run h hgo with ⟨_, rfl, ht⟩ | ⟨e, rfl, ht⟩
      · exact .passed ht rfl rfl rfl
      · exact .passed ht rfl rfl rfl
  | store record =>
      rcases Task.bind_eq hgo with ⟨_, u, hstore, hdone⟩ | ⟨e, hstore, rfl⟩
      · cases hdone
        rcases (counted_store record).run h hstore with ⟨_, -, ht⟩ | ⟨_, he, -⟩
        · simpa [Tallied, Dealing.isRead, Dealing.isStored, Dealing.isMerged] using ht
        · cases he
      · rcases (counted_store record).run h hstore with ⟨_, ha, -⟩ | ⟨_, -, ht⟩
        · cases ha
        · exact .passed ht rfl rfl rfl
  | read location part buffer =>
      rcases Task.bind_eq hgo with ⟨_, u, hread, hdone⟩ | ⟨e, hread, rfl⟩
      · cases hdone
        rcases (counted_readInto location part buffer).run h hread with ⟨_, -, ht⟩ | ⟨_, he, -⟩
        · simpa [Tallied, Dealing.isRead, Dealing.isStored, Dealing.isMerged] using ht
        · cases he
      · rcases (counted_readInto location part buffer).run h hread with ⟨_, ha, -⟩ | ⟨_, -, ht⟩
        · cases ha
        · exact .passed ht rfl rfl rfl

theorem Tallied.finished (h : Tallied log s) {m : Merge} {r : Except ArchiveError Unit}
    (hgo : finishMerge m s = (r, t)) (hinputs : inputs ≠ []) : Tallied (log ++ [.merge inputs r]) t := by
  rcases (counted_finishMerge m).run h hgo with ⟨_, rfl, ht⟩ | ⟨e, rfl, ht⟩
  · obtain ⟨x, rest, rfl⟩ := List.exists_cons_of_ne_nil hinputs
    simpa [Tallied, Dealing.isRead, Dealing.isStored, Dealing.isMerged] using ht
  · exact .passed ht rfl rfl (Dealing.isMerged_error ..)

/-- Every step of a course keeps the counts, and a merge that is not finished has inputs. -/
theorem Course.tallied (hstart : Tallied [] s₀) (h : Course s₀ log pending s)
    (hnone : ∀ d ∈ log, d.outcome ≠ .error .indicesExhausted) :
    Tallied log s ∧ ∀ p ∈ pending, p.1 ≠ [] := by
  induction h with
  | opened => exact ⟨hstart, by simp⟩
  | @asked log pending s t ask r _ hgo ih =>
      obtain ⟨hlog, hpending⟩ := ih fun d hd => hnone d (List.mem_append_left _ hd)
      have hne := hnone (.ask ask r) (List.mem_concat_self ..)
      exact ⟨hlog.asked hgo hne, hpending⟩
  | waited clock _ ih => exact ⟨(ih hnone).1.same rfl rfl rfl, (ih hnone).2⟩
  | @prepared log s t files m _ hgo ih =>
      obtain ⟨hlog, -⟩ := ih hnone
      have hsome := (prepareMerge_isSome_iff hlog.nodup hgo).mp rfl
      rcases (counts_prepareMerge files).run hlog hgo with ⟨_, -, ht⟩ | ⟨_, he, -⟩
      · exact ⟨ht, by simp [hsome]⟩
      · cases he
  | @passed log s t files _ hgo ih =>
      obtain ⟨hlog, -⟩ := ih fun d hd => hnone d (List.mem_append_left _ hd)
      have hempty : s.self.stillCompleted files = [] := by
        by_contra hne
        cases (prepareMerge_isSome_iff hlog.nodup hgo).mpr hne
      rcases (counts_prepareMerge files).run hlog hgo with ⟨_, -, ht⟩ | ⟨_, he, -⟩
      · exact ⟨.passed ht rfl rfl (by rw [hempty]; rfl), by simp⟩
      · cases he
  | @refused log s t files e _ hgo ih =>
      obtain ⟨hlog, -⟩ := ih fun d hd => hnone d (List.mem_append_left _ hd)
      have hne := hnone (.merge (s.self.stillCompleted files) (.error e)) (List.mem_concat_self ..)
      rcases (counts_prepareMerge files).run hlog hgo with ⟨_, ha, -⟩ | ⟨e, he, ht⟩
      · cases ha
      · cases he
        exact ⟨.passed (ht fun he => hne (he ▸ rfl)) rfl rfl (Dealing.isMerged_error ..), by simp⟩
  | @finished log inputs m s t r _ hgo ih =>
      obtain ⟨hlog, hpending⟩ := ih fun d hd => hnone d (List.mem_append_left _ hd)
      exact ⟨hlog.finished hgo (hpending (inputs, m) rfl), by simp⟩
  | @abandoned log inputs m s e _ ih =>
      obtain ⟨hlog, -⟩ := ih fun d hd => hnone d (List.mem_append_left _ hd)
      exact ⟨hlog.passed rfl rfl (Dealing.isMerged_error ..), by simp⟩

def Ask.dealings : List Ask → Hosted Archive → List Dealing
  | [], _ => []
  | ask :: asks, s => .ask ask (ask.run s).1 :: dealings asks (ask.run s).2

/-- The dealings of a call; what is asked while a merge tells its moves comes before the merge itself. -/
def Call.dealings : Call → Hosted Archive → List Dealing
  | ask a, s => [.ask a (a.run s).1]
  | merge files asks, s =>
    (match prepareMerge files s with
      | (.ok (some _), t) => Ask.dealings asks t
      | _ => []) ++ [.merge (s.self.stillCompleted files) ((merge files asks).run s).1]
  | wait _, _ => []

def dealings : List Call → Hosted Archive → List Dealing
  | [], _ => []
  | c :: calls, s => c.dealings s ++ dealings calls (c.run s).2

theorem Course.runAll (h : Course s₀ log pending s) (asks : List Ask) :
    ∃ t, Ask.runAll asks s = (.ok (), t) ∧ Course s₀ (log ++ Ask.dealings asks s) pending t := by
  induction asks generalizing log s with
  | nil =>
      rw [Ask.dealings, List.append_nil]
      exact ⟨s, rfl, h⟩
  | cons ask asks ih =>
      have hgo : ask.run s = ((ask.run s).1, (ask.run s).2) := rfl
      obtain ⟨t, hrun, hnext⟩ := ih (h.asked hgo)
      rw [List.append_assoc] at hnext
      exact ⟨t, hrun, hnext⟩

theorem Course.call (h : Course s₀ log none s) (c : Call) :
    Course s₀ (log ++ c.dealings s) none (c.run s).2 := by
  cases c with
  | ask a => exact h.asked rfl
  | wait clock =>
      rw [Call.dealings, List.append_nil]
      exact h.waited clock
  | merge files asks =>
      rw [Call.dealings]
      rcases hprepare : prepareMerge files s with ⟨e | _ | m, t⟩
      · have hrun : (Call.merge files asks).run s = (.error e, t) := Task.bind_error hprepare
        rw [hrun]
        exact h.refused hprepare
      · have hrun : (Call.merge files asks).run s = (.ok (), t) := Task.bind_ok hprepare
        rw [hrun]
        exact h.passed hprepare
      · obtain ⟨u, hasks, hcourse⟩ := (h.prepared hprepare).runAll asks
        have hrun : (Call.merge files asks).run s = finishMerge m u :=
          (Task.bind_ok hprepare).trans (Task.bind_ok hasks)
        rw [hrun, ← List.append_assoc]
        exact hcourse.finished rfl

theorem Course.serve (h : Course s₀ log none s) (calls : List Call) :
    Course s₀ (log ++ dealings calls s) none (Archive.serve calls s) := by
  induction calls generalizing log s with
  | nil => simpa [dealings, Archive.serve] using h
  | cons c calls ih =>
      have hnext := ih (h.call c)
      rw [List.append_assoc] at hnext
      exact hnext

variable {directory : Path} {name : String} {host host' : Host} {a : Archive}

structure Found.Apart (found : Found) : Prop where
  nodup : (found.segments.map Segment.index).Nodup
  below : ∀ x ∈ found.segments, x.index.toNat < found.nextIndex
  next_lt : found.nextIndex < 0x100000000

theorem Found.Apart.next {found : Found} (h : found.Apart) {index : UInt32} (hne : index.toNat + 1 ≠ 0x100000000) :
    (⟨found.segments, max found.nextIndex (index.toNat + 1)⟩ : Found).Apart := by
  have hindex := index.toNat_lt
  have hnext := h.next_lt
  refine ⟨h.nodup, fun x hx => ?_, ?_⟩
  · have hx' := h.below x hx
    simp only
    omega
  · simp only
    omega

theorem Found.Apart.enter {found : Found} (h : found.Apart) {x : Segment} (hx : x.index.toNat < found.nextIndex) :
    (⟨Archive.enter found.segments x, found.nextIndex⟩ : Found).Apart := by
  refine ⟨nodup_enter h.nodup x, fun y hy => ?_, h.next_lt⟩
  rcases mem_enter hy with rfl | hy
  · exact hx
  · exact h.below y hy

theorem findSegment_apart {found found' : Found} {file : String} {slot : Nat} {index : UInt32}
    (h : found.Apart)
    (hgo : findSegment directory found file slot index host = (.ok found', host')) : found'.Apart := by
  rw [findSegment] at hgo
  split at hgo
  · cases hgo
  rename_i hne
  have hnext := h.next hne
  obtain ⟨_, h₁, -, hgo⟩ := Task.of_bind_ok hgo
  obtain ⟨_, h₂, -, hgo⟩ := Task.of_bind_ok hgo
  obtain ⟨footer, h₃, -, hgo⟩ := Task.of_bind_ok hgo
  cases footer with
  | none =>
      obtain ⟨_, h₄, -, hgo⟩ := Task.of_bind_ok hgo
      obtain ⟨_, h₅, -, hgo⟩ := Task.of_bind_ok hgo
      cases hgo
      exact hnext
  | some footer =>
      obtain ⟨handle, h₄, -, hgo⟩ := Task.of_bind_ok hgo
      obtain ⟨_, h₅, -, hgo⟩ := Task.of_bind_ok hgo
      cases hgo
      exact hnext.enter (Nat.lt_of_lt_of_le (Nat.lt_succ_self _) (Nat.le_max_right ..))

theorem findSegments_apart {files : List (String × Node)} {found found' : Found} (h : found.Apart)
    (hgo : findSegments directory name files found host = (.ok found', host')) : found'.Apart := by
  have hstep (f : ListedFile) (rest : List ListedFile) (found : Found) :
      Ensures (fun _ => found.Apart) (fun found' _ => found'.Apart) (fun _ _ => True)
        (findSegment directory found f.name f.slot f.index) := by
    intro host h
    split
    · rename_i hgo
      exact findSegment_apart h hgo
    · trivial
  have hsearch : Ensures (fun _ => found.Apart) (fun found' _ => found'.Apart) (fun _ _ => True)
      (findSegments directory name files found) :=
    ensures_findSegments_of_step (P := fun _ found _ => found.Apart) hstep files found
  rcases hsearch.run h hgo with ⟨_, he, hapart⟩ | ⟨_, he, -⟩
  · cases he
    exact hapart
  · cases he

theorem init_tallied (hinit : init directory name host = (.ok a, host')) : Tallied [] ⟨a, host'⟩ := by
  obtain ⟨_, h₁, -, hgo⟩ := Task.of_bind_ok hinit
  obtain ⟨files, h₂, -, hgo⟩ := Task.of_bind_ok hgo
  obtain ⟨found, h₃, hfind, hgo⟩ := Task.of_bind_ok hgo
  obtain ⟨_, h₄, -, hgo⟩ := Task.of_bind_ok hgo
  obtain ⟨_, h₅, -, hgo⟩ := Task.of_bind_ok hgo
  cases hgo
  have hstart : Found.Apart ⟨[], 0⟩ := ⟨.nil, by simp, by decide⟩
  have hfound := findSegments_apart hstart hfind
  refine ⟨hfound.nodup.sublist (List.filter_sublist.map _), fun x hx => ?_, rfl⟩
  rw [UInt32.lt_iff_toNat_lt, UInt32.toNat_ofNat', Nat.mod_eq_of_lt hfound.next_lt]
  exact hfound.below x (List.mem_filter.mp hx).1

/--
An archive in the course of any calls, with any outcome, also while a merge tells its moves. As long as the
indices are not exhausted, it counts as many segments as its table has, which are of different indices, and
as many reads, stored records and merges as have succeeded. Merges without a completed segment that was
still there do not count.
-/
theorem counts_follow (hinit : init directory name host = (.ok a, host'))
    (h : Course ⟨a, host'⟩ log pending s)
    (hnone : ∀ d ∈ log, d.outcome ≠ .error .indicesExhausted) :
    (s.self.segments.map Segment.index).Nodup ∧
      s.self.counts = ⟨s.self.segments.length, log.countP Dealing.isRead, log.countP Dealing.isStored,
        log.countP Dealing.isMerged⟩ := by
  obtain ⟨htallied, -⟩ := h.tallied (init_tallied hinit) hnone
  exact ⟨htallied.nodup, htallied.counts⟩

def mergedCalls (s : Hosted Archive) : List Call :=
  let sessions : List Call :=
    [.ask .start, .ask (.store ⟨1, [7]⟩), .ask (.finish 0 10), .ask (.store ⟨1, [8]⟩), .ask .start,
      .ask (.store ⟨2, [9]⟩), .ask (.finish 0 10)]
  let read : Ask := .read (Location.pack 4 0) .data [0, 0]
  sessions ++ [.merge (serve sessions s).self.completed [read, .start], .ask read, .merge [] []]

/-- The merge has left one segment, beside that of the session started meanwhile; old locations are gone. -/
theorem counts_follow_merged :
    ∃ a host', init [] "x" (strayed "x_00000003.dat") = (.ok a, host') ∧
      let log := dealings (mergedCalls ⟨a, host'⟩) ⟨a, host'⟩
      let s := serve (mergedCalls ⟨a, host'⟩) ⟨a, host'⟩
      Course ⟨a, host'⟩ log none s ∧ (∀ d ∈ log, d.outcome ≠ .error .indicesExhausted) ∧
        s.self.counts = ⟨2, 1, 2, 1⟩ := by
  obtain ⟨a, host', hinit, hnone, hsegments, hreads, hstored, hmerged⟩ :=
    exists_init_strayed "x_00000003.dat" (fun s =>
      (∀ d ∈ dealings (mergedCalls s) s, d.outcome ≠ .error .indicesExhausted) ∧
        (serve (mergedCalls s) s).self.segments.length = 2 ∧
        (dealings (mergedCalls s) s).countP Dealing.isRead = 1 ∧
        (dealings (mergedCalls s) s).countP Dealing.isStored = 2 ∧
        (dealings (mergedCalls s) s).countP Dealing.isMerged = 1) (by decide +kernel)
  have hopened : Course ⟨a, host'⟩ [] none ⟨a, host'⟩ := .opened
  have hcourse := hopened.serve (mergedCalls ⟨a, host'⟩)
  obtain ⟨-, hcounts⟩ := counts_follow hinit hcourse hnone
  refine ⟨a, host', hinit, hcourse, hnone, ?_⟩
  rw [hcounts, hsegments]
  simp only [List.nil_append]
  rw [hreads, hstored, hmerged]
  rfl

end Archive

end MeteredStorage
