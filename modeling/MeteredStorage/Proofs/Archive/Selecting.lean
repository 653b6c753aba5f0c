import Mathlib.Algebra.Order.BigOperators.Group.List
import Mathlib.Algebra.Order.Ring.Nat
import Mathlib.Data.List.Perm.Subperm
import MeteredStorage.Proofs.Archive.Reached
import MeteredStorage.Proofs.Segment.Reading

namespace MeteredStorage

open MeteredStorage.Task (Abides Ensures)

namespace Archive

open Hosted

variable {directory : Path} {name : String} {s t u : Hosted Archive} {line old run rest : List Volume}
  {front mid back : List Volume} {current : Option Volume} {kept files : List Segment} {m : Option Merge}

/-- As long as the sizes do not run over, all runs from the front within the limit are in the choice. -/
theorem prefix_takeWithin_iff {limit total : Nat} {ss l : List Segment}
    (hmax : total + (ss.map Segment.size).sum ≤ 0xFFFFFFFFFFFFFFFF) (hle : total ≤ limit)
    (hl : l <+: ss) : l <+: takeWithin limit total ss ↔ total + (l.map Segment.size).sum ≤ limit := by
  induction ss generalizing total l with
  | nil =>
      obtain rfl := List.prefix_nil.mp hl
      simpa [takeWithin] using hle
  | cons s ss ih =>
      rw [List.map_cons, List.sum_cons, ← Nat.add_assoc] at hmax
      have hmin : min (total + s.size) 0xFFFFFFFFFFFFFFFF = total + s.size :=
        Nat.min_eq_left (Nat.le_trans (Nat.le_add_right ..) hmax)
      cases l with
      | nil => simpa using hle
      | cons x l =>
          replace ⟨rfl, hl⟩ := List.cons_prefix_cons.mp hl
          rw [takeWithin, hmin, List.map_cons, List.sum_cons, ← Nat.add_assoc]
          split
          · rename_i hfits
            rw [List.cons_prefix_cons, ih hmax hfits hl, eq_self, true_and]
          · rename_i hover
            refine iff_of_false (fun h => ?_) fun h => hover (Nat.le_trans (Nat.le_add_right ..) h)
            cases List.prefix_nil.mp h

structure Selection (a : Archive) (limit : UInt64) (files : List Segment) : Prop where
  front : files <+: a.completed
  within : (files.map Segment.size).sum ≤ limit.toNat
  longest : ∀ l, l <+: a.completed → (l.map Segment.size).sum ≤ limit.toNat → l <+: files

theorem Shelved.sum_size_le (h : Shelved s.self s.host.disk line old current) :
    ((line.map Volume.segment).map Segment.size).sum ≤ 0xFFFFFFFFFFFFFFFF := by
  have hsize : ∀ n ∈ (line.map Volume.segment).map Segment.size, n ≤ Location.maxOffset + pageSize := by
    intro n hn
    rw [List.map_map] at hn
    obtain ⟨v, hv, rfl⟩ := List.mem_map.mp hn
    obtain ⟨hstored, hc⟩ := h.mem_line hv
    obtain ⟨f, hf⟩ := Option.isSome_iff_exists.mp hc
    have hle := hstored.size_le
    rw [← (hstored.footer f hf).dataSize, Location.maxOffset_eq] at hle
    rw [Function.comp_apply, Segment.size, hf, Location.maxOffset_eq]
    simp only [Option.map_some, Option.getD_some, Footer.size, alignToPage, pageSize]
    omega
  have hcount : line.length ≤ Location.maxSegments := by
    have hnodup : (line.map fun v => v.segment.index.toNat).Nodup := by
      have hn := h.nodup_indices
      rw [List.map_map] at hn
      exact List.pairwise_map.mpr ((List.pairwise_map.mp hn).imp fun hne he =>
        hne (UInt32.toNat_inj.mp he))
    have hsub : (line.map fun v => v.segment.index.toNat) ⊆ List.range Location.maxSegments := by
      intro i hi
      obtain ⟨v, hv, rfl⟩ := List.mem_map.mp hi
      exact List.mem_range.mpr (h.mem_line hv).1.index_lt
    have hle := (hnodup.subperm hsub).length_le
    rwa [List.length_map, List.length_range] at hle
  have hsum := List.sum_le_card_nsmul _ _ hsize
  rw [List.length_map, List.length_map, nsmul_eq_mul, Nat.cast_id] at hsum
  refine hsum.trans ((Nat.mul_le_mul_right _ hcount).trans ?_)
  decide

theorem Shelved.selection (h : Shelved s.self s.host.disk line [] current) (limit : UInt64) :
    Selection s.self limit (s.self.oldest limit) := by
  have hiff {l : List Segment} (hl : l <+: s.self.completed) :
      l <+: s.self.oldest limit ↔ (l.map Segment.size).sum ≤ limit.toNat := by
    have hmax := h.sum_size_le
    rw [← h.completed_eq, ← Nat.zero_add (List.sum _)] at hmax
    rw [oldest, prefix_takeWithin_iff hmax (Nat.zero_le _) hl, Nat.zero_add]
  have hfront : s.self.oldest limit <+: s.self.completed := takeWithin_prefix ..
  exact ⟨hfront, (hiff hfront).mp (List.prefix_refl _), fun l hl hle => (hiff hl).mpr hle⟩

def Action.inSession : Action → Bool
  | .start | .store _ | .finish _ _ | .wait _ => true
  | .merge _ | .reopen => false

/--
What comes after `s`, with the merge in progress: sessions, reads, and merges of what was oldest just
before, during which sessions go on. The number of the next index has not run over.
-/
inductive Onward (s : Hosted Archive) : Option Merge → Hosted Archive → Prop
  | kept : Onward s none s
  | acted {m : Option Merge} {t u : Hosted Archive} {act : Action} {r : Except ArchiveError Unit}
      (ht : Onward s m t) (h : act.run t = (r, u)) (hact : act.inSession)
      (hn : t.self.nextIndex.toNat + 1 < 0x100000000) : Onward s m u
  | read {m : Option Merge} {t u : Hosted Archive} {location : Int64} {part : Part} {buffer : Bytes}
      {r : Except ArchiveError (Nat × Bytes)} (ht : Onward s m t)
      (h : readInto location part buffer t = (r, u)) : Onward s m u
  | prepared {t u : Hosted Archive} {limit : UInt64} {r : Except ArchiveError (Option Merge)}
      (ht : Onward s none t) (h : prepareMerge (t.self.oldest limit) t = (r, u))
      (hn : t.self.nextIndex.toNat + 1 < 0x100000000) : Onward s (r.toOption.getD none) u
  | finished {m : Merge} {t u : Hosted Archive} {r : Except ArchiveError Unit}
      (ht : Onward s (some m) t) (h : finishMerge m t = (r, u)) : Onward s none u

structure Remains (kept : List Segment) (a : Archive) (front mid back : List Volume)
    (current : Option Volume) : Prop where
  subset : ∀ v ∈ mid, v.segment ∈ kept
  gone : ∀ v ∈ front ++ back ++ current.toList, ∀ x ∈ kept, x.index ≠ v.segment.index
  older : ∀ x ∈ kept, x.index.toNat < a.nextIndex.toNat

def Awaits (m : Option Merge) (old : List Volume) : Prop :=
  match m with
  | none => old = []
  | some m => m.inputs = old.map Volume.segment

structure Withstands (kept : List Segment) (m : Option Merge) (s : Hosted Archive)
    (front mid back old : List Volume) (current : Option Volume) : Prop where
  shelved : Shelved s.self s.host.disk (front ++ (mid ++ back)) old current
  remains : Remains kept s.self front mid back current
  awaits : Awaits m old

theorem Remains.mono {a a' : Archive} {n : Nat} (h : Remains kept a front mid back current)
    (hf : Follows n a a') {front' mid' back' : List Volume} {current' : Option Volume}
    (hmid : ∀ v ∈ mid', v ∈ mid)
    (hgone : ∀ v ∈ front' ++ back' ++ current'.toList, v.segment.index = a.nextIndex ∨
      ∃ w ∈ front ++ back ++ current.toList, w.segment.index = v.segment.index) :
    Remains kept a' front' mid' back' current' where
  subset v hv := h.subset v (hmid v hv)
  gone v hv x hx he := by
    rcases hgone v hv with hv | ⟨w, hw, hindex⟩
    · exact Nat.ne_of_lt (h.older x hx) (congrArg UInt32.toNat (he.trans hv))
    · exact h.gone w hw x hx (he.trans hindex.symm)
  older x hx := by
    rw [hf.nextIndex]
    exact Nat.lt_of_lt_of_le (h.older x hx) (Nat.le_add_right ..)

theorem Shelved.withstands (h : Shelved s.self s.host.disk line [] current)
    (hf : kept <+: line.map Volume.segment) :
    ∃ mid back, Withstands kept none s [] mid back [] current := by
  obtain ⟨rest, hrest⟩ := hf
  obtain ⟨mid, back, rfl, rfl, -⟩ := List.map_eq_append_iff.mp hrest.symm
  refine ⟨mid, back, h, ⟨fun v hv => List.mem_map_of_mem hv, fun v hv x hx => ?_, fun x hx => ?_⟩, rfl⟩
  · obtain ⟨u, hu, rfl⟩ := List.mem_map.mp hx
    obtain ⟨-, happ, hcross⟩ := List.pairwise_append.mp h.kept.holds.apart
    rw [List.append_nil] at happ hcross
    rw [List.nil_append] at hv
    rcases List.mem_append.mp hv with hv | hv
    · exact ((List.pairwise_append.mp happ).2.2 u hu v hv).index
    · exact (hcross v hv u (List.mem_append_left _ hu)).index.symm
  · obtain ⟨u, hu, rfl⟩ := List.mem_map.mp hx
    exact h.kept.holds.index_lt u (by simp [hu])

theorem Withstands.acted (h : Withstands kept m t front mid back old current) {act : Action}
    {r : Except ArchiveError Unit} (hgo : act.run t = (r, u)) (hact : act.inSession)
    (hn : t.self.nextIndex.toNat + 1 < 0x100000000) :
    ∃ back' current', Withstands kept m u front mid back' old current' := by
  cases act with
  | start =>
      replace hgo : startWriting t = (r, u) := hgo
      cases current with
      | some v =>
          have hw : t.self.writer = some v.writer := h.shelved.writer
          have hrun : startWriting t = (.error .sessionActive, t) := by simp [startWriting, hw]
          rw [hrun] at hgo
          cases hgo
          exact ⟨back, some v, h⟩
      | none =>
          rcases h.shelved.startWriting_cases hn with ⟨e, t1, hrun, hf, hs, -⟩ |
            ⟨v, t1, hrun, -, hindex, -, hf, hs⟩
          · rw [hrun] at hgo
            cases hgo
            exact ⟨back, none, hs, h.remains.mono hf (fun _ hv => hv) fun v hv => .inr ⟨v, hv, rfl⟩,
              h.awaits⟩
          · rw [hrun] at hgo
            cases hgo
            refine ⟨back, some v, hs, h.remains.mono hf (fun _ hv => hv) fun w hw => ?_, h.awaits⟩
            rcases List.mem_append.mp hw with hw | hw
            · exact .inr ⟨w, List.mem_append_left _ hw, rfl⟩
            · rw [Option.toList_some, List.mem_singleton] at hw
              exact .inl (hw ▸ hindex)
  | store record =>
      have hstate : u = (store record t).2 := by
        rw [← Task.snd_ignore]
        exact (congrArg Prod.snd hgo).symm
      rcases h.shelved.store_cases record with ⟨e, hrun, -⟩ | ⟨v, t1, rfl, -, -, hrun, hf, hs⟩
      · rw [hstate, hrun]
        exact ⟨back, current, h⟩
      · rw [hstate, hrun]
        refine ⟨back, some (v.push record), hs, h.remains.mono hf (fun _ hv => hv) fun w hw => ?_, h.awaits⟩
        rcases List.mem_append.mp hw with hw | hw
        · exact .inr ⟨w, List.mem_append_left _ hw, rfl⟩
        · rw [Option.toList_some, List.mem_singleton] at hw
          exact .inr ⟨v, by simp, hw ▸ rfl⟩
  | finish minKey maxKey =>
      replace hgo : endWriting minKey maxKey t = (r, u) := hgo
      cases current with
      | none =>
          have hw : t.self.writer = none := h.shelved.writer
          have hrun : endWriting minKey maxKey t = (.error .noSession, t) := by simp [endWriting, hw]
          rw [hrun] at hgo
          cases hgo
          exact ⟨back, none, h⟩
      | some v =>
          obtain ⟨f, t1, hrun, -, -, -, hf, hs⟩ := h.shelved.endWriting_run minKey maxKey
          rw [hrun] at hgo
          cases hgo
          rw [List.append_assoc, List.append_assoc] at hs
          refine ⟨back ++ [v.finished f], none, hs, h.remains.mono hf (fun _ hv => hv) fun w hw => ?_,
            h.awaits⟩
          rw [Option.toList_none, List.append_nil, ← List.append_assoc] at hw
          rcases List.mem_append.mp hw with hw | hw
          · exact .inr ⟨w, List.mem_append_left _ hw, rfl⟩
          · exact .inr ⟨v, by simp, List.mem_singleton.mp hw ▸ rfl⟩
  | wait clock =>
      cases hgo
      exact ⟨back, current, h.shelved, h.remains, h.awaits⟩
  | merge files => exact absurd hact Bool.false_ne_true
  | reopen => exact absurd hact Bool.false_ne_true

theorem Withstands.read (h : Withstands kept m t front mid back old current) {location : Int64}
    {part : Part} {buffer : Bytes} {r : Except ArchiveError (Nat × Bytes)}
    (hgo : readInto location part buffer t = (r, u)) :
    Withstands kept m u front mid back old current := by
  cases hf : t.self.fetch t.host.disk location part buffer.length with
  | error e =>
      have hrun : readInto location part buffer t = (.error e, t) := by simp [readInto, hf]
      rw [hrun] at hgo
      cases hgo
      exact h
  | ok bytes =>
      have hrun : readInto location part buffer t = (.ok (bytes.length, Bytes.overlay 0 bytes buffer),
          { t with self := { t.self with counts := { t.self.counts with reads := t.self.counts.reads + 1 } } }) := by
        simp [readInto, hf]
      rw [hrun] at hgo
      cases hgo
      exact ⟨h.shelved.congr rfl rfl rfl rfl rfl, ⟨h.remains.subset, h.remains.gone, h.remains.older⟩,
        h.awaits⟩

/-- A merge of the oldest puts one segment in the front and takes away what comes first. -/
theorem Withstands.prepared (h : Withstands kept none t front mid back old current) {limit : UInt64}
    {r : Except ArchiveError (Option Merge)} (hgo : prepareMerge (t.self.oldest limit) t = (r, u))
    (hn : t.self.nextIndex.toNat + 1 < 0x100000000) :
    ∃ front' mid' back' old', Withstands kept (r.toOption.getD none) u front' mid' back' old' current := by
  have hold : old = [] := h.awaits
  subst hold
  have hfront : t.self.oldest limit <+: (front ++ (mid ++ back)).map Volume.segment := by
    rw [← h.shelved.completed_eq]
    exact takeWithin_prefix ..
  by_cases hne : t.self.oldest limit = []
  · have hrun : prepareMerge (t.self.oldest limit) t = (.ok none, t) := by
      rw [hne]
      rfl
    rw [hrun] at hgo
    cases hgo
    exact ⟨front, mid, back, [], h⟩
  · rcases h.shelved.prepareMerge_front hn hfront hne with ⟨e, t1, hrun, hf, hs, -⟩ |
      ⟨m, t1, run, rest, newest, out, hrun, -, hp⟩
    · rw [hrun] at hgo
      cases hgo
      exact ⟨front, mid, back, [], hs, h.remains.mono hf (fun _ hv => hv) fun v hv => .inr ⟨v, hv, rfl⟩,
        rfl⟩
    · rw [hrun] at hgo
      cases hgo
      have hline : front ++ (mid ++ back) = run ++ rest := hp.line_eq
      have hrest : rest = front.drop run.length ++ (mid.drop (run.length - front.length) ++
          back.drop (run.length - front.length - mid.length)) := by
        rw [← List.drop_append, ← List.drop_append, hline, List.drop_left]
      have hs := hp.shelved.perm_old (List.reverse_perm run).symm
      rw [List.nil_append, hrest, ← List.append_assoc] at hs
      refine ⟨out.toList ++ front.drop run.length, _, _, run.reverse, hs, ?_, ?_⟩
      · refine h.remains.mono hp.follows (fun v hv => List.mem_of_mem_drop hv) fun v hv => ?_
        simp only [List.mem_append] at hv ⊢
        rcases hv with ((hv | hv) | hv) | hv
        · exact .inl (hp.merged v (Option.mem_toList.mp hv)).2
        · exact .inr ⟨v, .inl (.inl (List.mem_of_mem_drop hv)), rfl⟩
        · exact .inr ⟨v, .inl (.inr (List.mem_of_mem_drop hv)), rfl⟩
        · exact .inr ⟨v, .inr hv, rfl⟩
      · change m.inputs = run.reverse.map Volume.segment
        rw [hp.inputs, List.map_reverse]

theorem Withstands.finished {m : Merge} (h : Withstands kept (some m) t front mid back old current)
    {r : Except ArchiveError Unit} (hgo : finishMerge m t = (r, u)) :
    Withstands kept none u front mid back [] current := by
  have hshelved := h.shelved
  have hinputs : m.inputs = old.map Volume.segment := h.awaits
  rw [← List.append_nil old] at hshelved
  obtain ⟨t1, hremove, hf, hs⟩ := hshelved.removeSegments_run
  obtain ⟨t2, hconclude, hf', hs'⟩ := hs.concludeMerge_run m
  rw [finishMerge, hinputs, Task.bind_ok hremove, hconclude] at hgo
  cases hgo
  exact ⟨hs', h.remains.mono (hf.trans hf') (fun _ hv => hv) fun v hv => .inr ⟨v, hv, rfl⟩, rfl⟩

theorem Onward.withstands (h : Onward s m t)
    (hs : Withstands kept none s front mid back old current) :
    ∃ front mid back old current, Withstands kept m t front mid back old current := by
  induction h with
  | kept => exact ⟨front, mid, back, old, current, hs⟩
  | acted _ hgo hact hn ih =>
      obtain ⟨front, mid, back, old, current, ht⟩ := ih
      obtain ⟨back', current', hu⟩ := ht.acted hgo hact hn
      exact ⟨front, mid, back', old, current', hu⟩
  | read _ hgo ih =>
      obtain ⟨front, mid, back, old, current, ht⟩ := ih
      exact ⟨front, mid, back, old, current, ht.read hgo⟩
  | prepared _ hgo hn ih =>
      obtain ⟨front, mid, back, old, current, ht⟩ := ih
      obtain ⟨front', mid', back', old', hu⟩ := ht.prepared hgo hn
      exact ⟨front', mid', back', old', current, hu⟩
  | finished _ hgo ih =>
      obtain ⟨front, mid, back, old, current, ht⟩ := ih
      exact ⟨front, mid, back, [], current, ht.finished hgo⟩

theorem Withstands.mergeable_perm (h : Withstands kept none t front mid back old current)
    (hnodup : (kept.map Segment.index).Nodup) :
    ((t.self.mergeable kept).map Segment.index).Perm ((mid.map Volume.segment).map Segment.index) := by
  have hold : old = [] := h.awaits
  subst hold
  have hline := h.shelved.nodup_indices
  rw [List.map_append, List.map_append, List.map_append, List.map_append] at hline
  have hmid := (List.nodup_append.mp (List.nodup_append.mp hline).2.1).1
  refine (List.perm_ext_iff_of_nodup (hnodup.sublist (List.filter_sublist.map _)) hmid).mpr fun i => ?_
  constructor
  · intro hi
    obtain ⟨x, hx, rfl⟩ := List.mem_map.mp hi
    obtain ⟨hx, hthere⟩ := List.mem_filter.mp hx
    obtain ⟨y, hy, -⟩ := (Option.any_eq_true ..).mp (Bool.and_eq_true_iff.mp hthere).2
    have hfound := List.find?_some hy
    obtain ⟨v, hv, rfl⟩ := h.shelved.kept.holds.mem_segments.mp (List.mem_of_find?_eq_some hy)
    have hindex : x.index = v.segment.index := (beq_iff_eq.mp hfound).symm
    rw [hindex]
    have hother := h.remains.gone v
    simp only [List.mem_append, List.append_nil] at hv hother
    rcases hv with hv | hv | hv | hv
    · exact absurd hindex (hother (.inr hv) x hx)
    · exact absurd hindex (hother (.inl (.inl hv)) x hx)
    · exact List.mem_map_of_mem (List.mem_map_of_mem hv)
    · exact absurd hindex (hother (.inl (.inr hv)) x hx)
  · intro hi
    obtain ⟨x, hx, rfl⟩ := List.mem_map.mp hi
    obtain ⟨v, hv, rfl⟩ := List.mem_map.mp hx
    have hfound := h.shelved.kept.holds.segment?_eq (v := v) (by simp [hv])
    refine List.mem_map_of_mem (List.mem_filter.mpr ⟨h.remains.subset v hv, ?_⟩)
    rw [hfound, (h.shelved.mem_line (v := v) (by simp [hv])).2]
    simp

def Joins {α : Type} (task : ArchiveTask α) : Prop :=
  Ensures (fun _ => True) (fun _ _ => True) (fun e _ => e ≠ .notContiguous) task

section Joins

variable {α β : Type} {task : ArchiveTask α} {f : α → ArchiveTask β}

theorem Joins.then (h : Joins task) (hf : ∀ a, Joins (f a)) : Joins (task >>= f) := Ensures.bind h hf

theorem Joins.pure (a : α) : Joins (Pure.pure a : ArchiveTask α) := Ensures.pure fun _ _ => trivial

theorem Joins.throw {e : ArchiveError} (h : e ≠ .notContiguous) :
    Joins (MonadExcept.throw e : ArchiveTask α) := Ensures.throw fun _ _ => h

theorem Joins.get {f : Hosted Archive → ArchiveTask β} (hf : ∀ s, Joins (f s)) :
    Joins (MonadState.get >>= f) :=
  Ensures.get fun s _ => (hf s).mono (fun _ _ => trivial) (fun _ _ h => h) fun _ _ h => h

theorem Joins.modify (f : Hosted Archive → Hosted Archive) :
    Joins (modify f : ArchiveTask PUnit) := Ensures.modify fun _ _ => trivial

theorem Joins.abides (h : Joins task) : Abides (fun _ => True) (· ≠ .notContiguous) task :=
  Ensures.mono h (fun _ hs => hs) (fun _ _ hs => hs) fun _ _ he => ⟨trivial, he⟩

theorem joins_onDisk (task : DiskTask α) : Joins (onDisk task) := by
  intro s _
  rw [onDisk_run]
  rcases task s.host.disk with ⟨_ | _, d⟩
  · exact nofun
  · trivial

theorem joins_removeSegment (x : Segment) : Joins (removeSegment x) := by
  refine Joins.get fun s => ?_
  dsimp only
  split
  · exact (Joins.modify _).then fun _ => (Joins.modify _).then fun _ => joins_onDisk _
  · exact joins_onDisk _

theorem joins_syncDirectory : Joins syncDirectory := Joins.get fun _ => joins_onDisk _

theorem joins_createSegment : Joins createSegment := by
  refine Joins.get fun s => (Joins.modify _).then fun _ => ?_
  dsimp only
  split
  · exact Joins.throw nofun
  · exact (joins_onDisk _).then fun _ => (Joins.modify _).then fun _ => (Joins.modify _).then fun _ =>
      Joins.pure _

theorem joins_fillOutput (output : Segment) (newest : Footer) (mergedFrom : UInt64)
    (inputs : List Segment) : Joins (fillOutput output newest mergedFrom inputs) := by
  have hcopying : Copying (fun _ => True) (· ≠ .notContiguous) output :=
    ⟨fun offset r => (joins_onDisk _).abides, nofun, fun e he hne => nomatch hne ▸ he⟩
  exact (hcopying.fillOutput (fun f => ((joins_onDisk _).then fun _ => Joins.modify _).abides) _ _ _).mono
    (fun _ hs => hs) (fun _ _ hs => hs) fun _ _ hs => hs.2

theorem joins_mergeRun (run : List Segment) (newest : Footer) : Joins (mergeRun run newest) := by
  refine joins_createSegment.then fun output => (Joins.modify _).then fun _ =>
    Ensures.bind (Ensures.attempt (joins_fillOutput _ _ _ _)) fun r => ?_
  split
  · exact Ensures.throw fun _ _ => nofun
  · rename_i e _
    intro s hs
    exact ((joins_removeSegment output).then fun _ => Joins.throw (hs.2 e rfl)) s trivial
  · rename_i moves dataSize
    refine Ensures.mono (P := fun _ => True) (Q := fun _ _ => True) ?_ (fun _ _ => trivial)
      (fun _ _ h => h) fun _ _ h => h
    split
    · exact (joins_removeSegment _).then fun _ => Joins.pure _
    · exact joins_syncDirectory.then fun _ => Joins.pure _

theorem joins_finishMerge (m : Merge) : Joins (finishMerge m) := by
  have hremove (inputs : List Segment) : Joins (removeSegments inputs) := by
    induction inputs with
    | nil => exact Joins.pure _
    | cons x rest ih => exact (joins_removeSegment x).then fun _ => ih
  exact (hremove _).then fun _ => joins_syncDirectory.then fun _ => (Joins.modify _).then fun _ =>
    Joins.modify _

/-- A merge joins its segments if those that can be merged are a run, or if there are none. -/
theorem merge_ne_notContiguous {publish : List Relocation → ArchiveTask Unit}
    (hp : ∀ moves, Joins (publish moves))
    (hrun : t.self.mergeable files = [] ∨
      (contiguousRun? t.self.completed (t.self.mergeable files)).isSome) :
    (merge publish files t).1 ≠ .error .notContiguous := by
  have hprepare : Ensures (· = t) (fun _ _ => True) (fun e _ => e ≠ .notContiguous)
      (prepareMerge files) := by
    refine Ensures.get fun s hs => ?_
    subst hs
    dsimp only
    split
    · exact Ensures.pure fun _ _ => trivial
    · rename_i hsome
      split
      · rename_i hnone
        rw [hnone] at hrun
        rcases hrun with hempty | hjoined
        · exact absurd (List.isEmpty_iff.mpr hempty) hsome
        · cases hjoined
      · split
        · exact Ensures.pure fun _ _ => trivial
        · exact ((joins_mergeRun _ _).then fun _ => Joins.pure _).mono (fun _ _ => trivial)
            (fun _ _ h => h) fun _ _ h => h
  have hmerge : Ensures (· = t) (fun _ _ => True) (fun e _ => e ≠ .notContiguous)
      (merge publish files) := by
    refine Ensures.bind hprepare fun m => ?_
    cases m with
    | none => exact Joins.pure _
    | some m => exact (hp _).then fun _ => joins_finishMerge m
  intro he
  rcases hmerge.run rfl (Prod.eta (merge publish files t)).symm with ⟨a, hok, -⟩ | ⟨e, herror, hne⟩
  · rw [hok] at he
    cases he
  · rw [herror] at he
    exact hne (Except.error.inj he)

end Joins

/-- What is left, later on, of a choice that was kept. -/
theorem Reached.withstands (hr : Reached directory name s) (ht : Onward s none t) (limit : UInt64) :
    ((s.self.oldest limit).map Segment.index).Nodup ∧
      ∃ front mid back current, Withstands (s.self.oldest limit) none t front mid back [] current := by
  obtain ⟨line, current, hs⟩ := hr.shelves.shelved
  have hfront : s.self.oldest limit <+: line.map Volume.segment := by
    rw [← hs.completed_eq]
    exact takeWithin_prefix ..
  obtain ⟨mid, back, hstart⟩ := hs.withstands hfront
  obtain ⟨front, mid, back, old, current, hw⟩ := ht.withstands hstart
  have hold : old = [] := hw.awaits
  exact ⟨hs.nodup_indices.sublist (hfront.sublist.map _), front, mid, back, current, hold ▸ hw⟩

/--
The choice of the oldest is the longest run within the limit, and a larger limit extends it; the sizes
are those of the files. A choice that was kept while sessions and merges of the oldest went on can still
be merged.
-/
theorem Reached.oldest_stays_mergeable (hr : Reached directory name s) (ht : Onward s none t) :
    (∀ limit, Selection t.self limit (t.self.oldest limit)) ∧
    (∀ limit limit', limit ≤ limit' → t.self.oldest limit <+: t.self.oldest limit') ∧
    (∀ x ∈ t.self.completed, t.host.disk.find x.path = .ok (some (.file x.slot)) ∧
      (t.host.disk.content x.slot).length = x.size ∧ pageSize ∣ x.size) ∧
    ∀ limit publish, (∀ moves, Joins (publish moves)) →
      (merge publish (s.self.oldest limit) t).1 ≠ .error .notContiguous := by
  obtain ⟨-, front, mid, back, current, hw⟩ := hr.withstands ht 0
  have hselection := hw.shelved.selection
  refine ⟨hselection, fun limit limit' hle => ?_, fun x hx => ?_, fun limit publish hp => ?_⟩
  · refine (hselection limit').longest _ (hselection limit).front ((hselection limit).within.trans ?_)
    exact UInt64.le_iff_toNat_le.mp hle
  · rw [hw.shelved.completed_eq] at hx
    obtain ⟨v, hv, rfl⟩ := List.mem_map.mp hx
    obtain ⟨hstored, hc⟩ := hw.shelved.mem_line hv
    exact ⟨hstored.file.find, hstored.length_content hc⟩
  · obtain ⟨hnodup, front, mid, back, current, hw⟩ := hr.withstands ht limit
    have hperm := hw.mergeable_perm hnodup
    refine merge_ne_notContiguous hp ?_
    by_cases hnone : mid = []
    · subst hnone
      exact .inl (List.map_eq_nil_iff.mp hperm.eq_nil)
    · have hline : t.self.completed =
          front.map Volume.segment ++ (mid.map Volume.segment ++ back.map Volume.segment) := by
        rw [hw.shelved.completed_eq, List.map_append, List.map_append]
      have hindices := hw.shelved.nodup_indices
      rw [← hw.shelved.completed_eq, hline] at hindices
      rw [hline, contiguousRun?_of_perm hindices (fun h => hnone (List.map_eq_nil_iff.mp h)) hperm]
      exact .inr rfl

def pursue : List Action → Hosted Archive → Option (Hosted Archive)
  | [], s => some s
  | act :: acts, s =>
    if act.inSession ∧ s.self.nextIndex.toNat + 1 < 0x100000000 then pursue acts (act.run s).2 else none

theorem Onward.pursue {acts : List Action} (h : Onward s m t) (hp : pursue acts t = some u) :
    Onward s m u := by
  induction acts generalizing t with
  | nil =>
      cases hp
      exact h
  | cons act acts ih =>
      rw [Archive.pursue] at hp
      split at hp
      · rename_i hact
        exact ih (h.acted (Prod.eta (act.run t)).symm hact.1 hact.2) hp
      · cases hp

def overtaken (limit : UInt64) (s : Hosted Archive) : Option (Hosted Archive) :=
  (pursue [.start, .store ⟨7, [3]⟩, .finish 0 10] s).bind fun t =>
    if t.self.nextIndex.toNat + 1 < 0x100000000 then
      (prepareMerge (t.self.oldest limit) t).1.toOption.join.map fun m =>
        (finishMerge m (prepareMerge (t.self.oldest limit) t).2).2
    else none

theorem onward_of_overtaken {limit : UInt64} (h : overtaken limit s = some t) : Onward s none t := by
  obtain ⟨s1, hsession, h⟩ := Option.bind_eq_some_iff.mp h
  split at h
  · rename_i hn
    obtain ⟨m, hm, rfl⟩ := Option.map_eq_some_iff.mp h
    have hprepared := (Onward.kept.pursue hsession).prepared
      (Prod.eta (prepareMerge (s1.self.oldest limit) s1)).symm hn
    have hmerge : (prepareMerge (s1.self.oldest limit) s1).1.toOption.getD none = some m := by
      rw [Option.join_eq_some_iff.mp hm]
      rfl
    rw [hmerge] at hprepared
    exact hprepared.finished (Prod.eta (finishMerge m _)).symm
  · cases h

/-- Two segments are kept while another comes behind them and the first is merged: the second is left. -/
theorem oldest_stays_mergeable_overtaken :
    ∃ s t, Reached [] "x" s ∧ Onward s none t ∧
      (s.self.oldest 0xFFFFFFFFFFFFFFFF).map (·.index) = [0, 1] ∧
      t.self.completed.map (·.index) = [3, 1, 2] ∧
      (merge (fun _ => pure ()) (s.self.oldest 0xFFFFFFFFFFFFFFFF) t).1 ≠ .error .notContiguous := by
  have hcheck : (scenario "x" [.start, .store ⟨7, [1]⟩, .finish 0 10, .start, .store ⟨7, [2]⟩,
      .finish 0 10]).any fun s => (s.self.oldest 0xFFFFFFFFFFFFFFFF).map (·.index) == [0, 1] &&
        (overtaken 8192 s).any fun t => t.self.completed.map (·.index) == [3, 1, 2] := by
    decide +kernel
  obtain ⟨s, hs, hgo⟩ := (Option.any_eq_true ..).mp hcheck
  rw [Bool.and_eq_true, beq_iff_eq] at hgo
  obtain ⟨hkept, hgo⟩ := hgo
  obtain ⟨t, ht, hcompleted⟩ := (Option.any_eq_true ..).mp hgo
  have hr : Reached [] "x" s := Run.reached (run_of_scenario hs) (by decide)
  have honward := onward_of_overtaken ht
  exact ⟨s, t, hr, honward, hkept, beq_iff_eq.mp hcompleted,
    (Reached.oldest_stays_mergeable hr honward).2.2.2 _ _ fun _ => Joins.pure _⟩

end Archive

end MeteredStorage
