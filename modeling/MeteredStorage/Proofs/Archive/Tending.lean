import MeteredStorage.Archive.Opening
import MeteredStorage.Proofs.Archive.Lodging
import MeteredStorage.Proofs.Archive.Recency

namespace MeteredStorage

open MeteredStorage.Task (Ensures Upholds)

def Segment.Placed (directory : Path) (name : String) (x : Segment) : Prop :=
  x.path = Path.join directory (SegmentName.ofIndex name x.index)

/-- The same files under the same names, whatever has become of the bytes in them. -/
def Disk.Scrambled (d d' : Disk) : Prop :=
  d'.directories = d.directories ∧ d'.contents.length = d.contents.length

namespace Archive

open Hosted

/-- The archive works in directory `n`, where the files of its segments lie at their paths. -/
structure Attached (directory : Path) (name : String) (n : Nat) (s : Hosted Archive) : Prop where
  placed : ∀ x ∈ s.self.segments, x.Placed directory name
  lodges : Lodges directory name n (s.self.segments.map (Segment.listing name)) s.host.disk
  directory : s.self.directory = directory
  name : s.self.name = name

def Tends (directory : Path) (name : String) (n : Nat) {α : Type} (Q : α → Prop)
    (task : ArchiveTask α) : Prop :=
  Ensures (Attached directory name n) (fun a s => Attached directory name n s ∧ Q a)
    (fun _ => Attached directory name n) task

variable {directory : Path} {name : String} {n : Nat} {α β : Type} {Q : α → Prop} {R : β → Prop}
  {s t : Hosted Archive} {task : ArchiveTask α} {f : α → ArchiveTask β} {x : Segment}

theorem Attached.pathOf (h : Attached directory name n s) (i : UInt32) :
    s.self.pathOf i = Path.join directory (SegmentName.ofIndex name i) := by
  rw [Archive.pathOf, h.directory, h.name]

/-- The table may lose segments, and others may take their places if they have the same files. -/
theorem Attached.mono (h : Attached directory name n s) (hd : t.self.directory = s.self.directory)
    (hn : t.self.name = s.self.name) (hdisk : t.host.disk = s.host.disk)
    (hx : ∀ x ∈ t.self.segments, ∃ y ∈ s.self.segments, x.index = y.index ∧ x.path = y.path ∧
      x.slot = y.slot) : Attached directory name n t := by
  refine ⟨fun x hm => ?_, ?_, hd.trans h.directory, hn.trans h.name⟩
  · obtain ⟨y, hy, hindex, hpath, -⟩ := hx x hm
    rw [Segment.Placed, hindex, hpath]
    exact h.placed y hy
  · rw [hdisk]
    refine h.lodges.mono fun g hg => ?_
    obtain ⟨x, hm, rfl⟩ := List.mem_map.mp hg
    obtain ⟨y, hy, hindex, -, hslot⟩ := hx x hm
    rw [Segment.listing, hindex, hslot]
    exact List.mem_map_of_mem hy

theorem Tends.then (h : Tends directory name n Q task)
    (hf : ∀ a, Q a → Tends directory name n R (f a)) : Tends directory name n R (task >>= f) :=
  Upholds.then h hf

theorem Tends.pure {a : α} (h : Q a) : Tends directory name n Q (Pure.pure a : ArchiveTask α) :=
  Upholds.pure h

theorem Tends.throw (e : ArchiveError) :
    Tends directory name n Q (MonadExcept.throw e : ArchiveTask α) := Upholds.throw e

theorem Tends.get {f : Hosted Archive → ArchiveTask β}
    (hf : ∀ s, Attached directory name n s → Tends directory name n R (f s)) :
    Tends directory name n R (MonadState.get >>= f) := Upholds.get hf

theorem Tends.ofExcept {ε : Type} (wrap : ε → ArchiveError) (r : Except ε α) :
    Tends directory name n (fun _ => True) (Task.ofExcept wrap r) := Upholds.ofExcept wrap r

theorem Tends.attempt (h : Tends directory name n Q task) :
    Tends directory name n (fun r => ∀ a, r = .ok a → Q a)
      (Task.attempt task : ArchiveTask (Except ArchiveError α)) := Upholds.attempt h

theorem tends_update {f : Archive → Archive}
    (hf : ∀ a, (f a).directory = a.directory ∧ (f a).name = a.name ∧
      ∀ x ∈ (f a).segments, ∃ y ∈ a.segments, x.index = y.index ∧ x.path = y.path ∧ x.slot = y.slot) :
    Tends directory name n (fun _ => True) (update f) := by
  refine Ensures.modify fun s hs => ⟨?_, trivial⟩
  obtain ⟨hd, hn, hx⟩ := hf s.self
  exact hs.mono hd hn rfl hx

theorem tends_count (f : ArchiveCounts → ArchiveCounts) :
    Tends directory name n (fun _ => True) (count f) :=
  tends_update fun _ => ⟨rfl, rfl, fun x hx => ⟨x, hx, rfl, rfl, rfl⟩⟩

theorem tends_report (event : Event) :
    Tends directory name n (fun _ => True) (report event : ArchiveTask Unit) :=
  fun _ hs => ⟨hs.mono rfl rfl rfl fun x hx => ⟨x, hx, rfl, rfl, rfl⟩, trivial⟩

theorem tends_onDisk {task : DiskTask β}
    (h : ∀ d, (task d).2.directories = d.directories ∧
      (task d).2.contents.length = d.contents.length) :
    Tends directory name n (fun _ => True) (onDisk task) := by
  intro s hs
  obtain ⟨hd, hl⟩ := h s.host.disk
  have hattached (d : Disk) (he : (task s.host.disk).2 = d) :
      Attached directory name n (s.withDisk d) :=
    ⟨hs.placed, hs.lodges.congr (he ▸ hd) (he ▸ hl), hs.directory, hs.name⟩
  rw [onDisk_run]
  rcases hrun : task s.host.disk with ⟨_ | b, d⟩
  · exact hattached d (by rw [hrun])
  · exact ⟨hattached d (by rw [hrun]), trivial⟩

theorem tends_append (x : Segment) (offset : Nat) (r : Record) :
    Tends directory name n (fun _ => True) (onDisk (x.append offset r)) :=
  tends_onDisk fun d => ⟨rfl, by simp [Segment.append, Disk.changed, Disk.apply, Disk.setContent]⟩

theorem tends_syncDirectory : Tends directory name n (fun _ => True) syncDirectory := by
  refine Tends.get fun s _ => tends_onDisk fun d => ?_
  have hquiet := Disk.quiet_sync s.self.directory d
  rw [id, id] at hquiet
  rw [hquiet]
  exact ⟨rfl, rfl⟩

theorem tends_createSegment :
    Tends directory name n (Segment.Placed directory name) createSegment := by
  intro s hs
  rcases createSegment_cases s with ⟨e, s', hrun, hself, hdisk, -⟩ |
    ⟨trail, file, s', -, ht, hm, hrun, hself, hdisk⟩
  · rw [hrun]
    refine hs.mono (by rw [hself]) (by rw [hself]) hdisk fun x hx => ⟨x, ?_, rfl, rfl, rfl⟩
    rwa [hself] at hx
  · rw [hrun]
    rw [hs.pathOf] at ht
    have hlodges := hs.lodges.created ht hm
    refine ⟨⟨fun x hx => ?_, ?_, ?_, ?_⟩, hs.pathOf _⟩
    · rw [hself] at hx
      rcases mem_enter hx with rfl | hx
      · exact hs.pathOf _
      · exact hs.placed x hx
    · rw [hself, hdisk]
      refine hlodges.mono fun g hg => ?_
      obtain ⟨x, hx, rfl⟩ := List.mem_map.mp hg
      rcases mem_enter hx with rfl | hx
      · exact List.mem_cons_self ..
      · exact List.mem_cons_of_mem _ (List.mem_map_of_mem hx)
    · rw [hself]
      exact hs.directory
    · rw [hself]
      exact hs.name

theorem Lodges.unlinkIfPresent {fs : List ListedFile} {d : Disk} {j : UInt32}
    (h : Lodges directory name n fs d) (hfs : ∀ f ∈ fs, f.index ≠ j) :
    Lodges directory name n fs
      (Disk.unlinkIfPresent (Path.join directory (SegmentName.ofIndex name j)) d).2 := by
  unfold Disk.unlinkIfPresent
  rcases Disk.unlink_cases (Path.join directory (SegmentName.ofIndex name j)) d with
    ⟨e, hrun⟩ | ⟨trail, file, slot, ht, hm, hrun⟩
  · rw [Task.bind_run, Task.attempt_run, hrun]
    cases e <;> exact h
  · rw [Task.bind_run, Task.attempt_run, hrun]
    exact h.unlinked ht (Disk.meaning_eq_ok hm).2 hfs

theorem tends_removeSegment (hx : x.Placed directory name) :
    Tends directory name n (fun _ => True) (removeSegment x) := by
  have hremove : Ensures
      (fun s => Attached directory name n s ∧ ∀ y ∈ s.self.segments, y.index ≠ x.index)
      (fun _ s => Attached directory name n s ∧ True) (fun _ => Attached directory name n)
      (onDisk (Disk.unlinkIfPresent x.path)) := by
    rintro s ⟨hs, hgone⟩
    have hlodges := hs.lodges.unlinkIfPresent (j := x.index) fun g hg => by
      obtain ⟨y, hy, rfl⟩ := List.mem_map.mp hg
      exact hgone y hy
    rw [← hx] at hlodges
    rw [onDisk_run]
    rcases hrun : Disk.unlinkIfPresent x.path s.host.disk with ⟨_ | _, d⟩
    · rw [hrun] at hlodges
      exact ⟨hs.placed, hlodges, hs.directory, hs.name⟩
    · rw [hrun] at hlodges
      exact ⟨⟨hs.placed, hlodges, hs.directory, hs.name⟩, trivial⟩
  refine Ensures.get fun s hs => ?_
  dsimp only
  split
  · refine Ensures.bind (Ensures.modify (Q := fun _ s => Attached directory name n s ∧
      ∀ y ∈ s.self.segments, y.index ≠ x.index) ?_) fun _ => ?_
    · rintro t rfl
      refine ⟨hs.mono rfl rfl rfl fun y hy => ⟨y, (List.mem_filter.mp hy).1, rfl, rfl, rfl⟩, ?_⟩
      exact fun y hy => by simpa using (List.mem_filter.mp hy).2
    · refine Ensures.bind (Ensures.modify (Q := fun _ s => Attached directory name n s ∧
        ∀ y ∈ s.self.segments, y.index ≠ x.index) ?_) fun _ => hremove
      exact fun t ht => ⟨ht.1.mono rfl rfl rfl fun y hy => ⟨y, hy, rfl, rfl, rfl⟩, ht.2⟩
  · rename_i hnone
    refine hremove.mono ?_ (fun _ _ ht => ht) fun _ _ ht => ht
    rintro t rfl
    refine ⟨hs, fun y hy he => hnone ?_⟩
    rw [segment?, List.find?_isSome]
    exact ⟨y, hy, by simpa using he⟩

theorem tends_finishSegment (x : Segment) (f : Footer) :
    Tends directory name n (fun _ => True) (finishSegment x f) := by
  refine (tends_onDisk fun d => ⟨rfl, ?_⟩).then fun _ _ => ?_
  · simp [Segment.finish, Disk.changed, Disk.apply, Disk.setContent]
  · refine tends_update fun a => ⟨rfl, rfl, fun y hy => ?_⟩
    obtain ⟨t, ht, rfl⟩ := List.mem_map.mp hy
    refine ⟨t, ht, ?_⟩
    split <;> exact ⟨rfl, rfl, rfl⟩

theorem tends_startWriting : Tends directory name n (fun _ => True) startWriting := by
  refine Tends.get fun s _ => ?_
  split
  · exact Tends.throw _
  · refine tends_createSegment.then fun x _ => (tends_report _).then fun _ _ => ?_
    exact tends_update fun _ => ⟨rfl, rfl, fun y hy => ⟨y, hy, rfl, rfl, rfl⟩⟩

theorem tends_store (r : Record) : Tends directory name n (fun _ => True) (store r) := by
  refine Tends.get fun s _ => ?_
  split
  · exact Tends.throw _
  · dsimp only
    split
    · exact Tends.throw _
    · refine (Tends.ofExcept _ _).then fun location _ => ?_
      split
      · exact Tends.throw _
      · refine (tends_append _ _ _).then fun _ _ => Tends.then (Q := fun _ => True) ?_ fun _ _ =>
          (tends_count _).then fun _ _ => (tends_report _).then fun _ _ => Tends.pure trivial
        exact tends_update fun _ => ⟨rfl, rfl, fun y hy => ⟨y, hy, rfl, rfl, rfl⟩⟩

theorem tends_endWriting (minKey maxKey : Int64) :
    Tends directory name n (fun _ => True) (endWriting minKey maxKey) := by
  refine Tends.get fun s _ => ?_
  split
  · exact Tends.throw _
  · refine Tends.then (Q := fun _ => True) ?_ fun _ _ => Tends.get fun _ _ =>
      (tends_finishSegment _ _).then fun _ _ => tends_syncDirectory.then fun _ _ => tends_report _
    exact tends_update fun _ => ⟨rfl, rfl, fun y hy => ⟨y, hy, rfl, rfl, rfl⟩⟩

theorem tends_readInto (location : Int64) (part : Part) (buffer : Bytes) :
    Tends directory name n (fun _ => True) (readInto location part buffer) :=
  Tends.get fun _ _ => (Tends.ofExcept _ _).then fun _ _ => (tends_count _).then fun _ _ =>
    Tends.pure trivial

theorem tends_fillOutput (output : Segment) (newest : Footer) (mergedFrom : UInt64)
    (inputs : List Segment) :
    Tends directory name n (fun _ => True) (fillOutput output newest mergedFrom inputs) := by
  have hcopying : Copying (Attached directory name n) (fun _ => True) output :=
    ⟨fun offset r => Upholds.abides (tends_append output offset r), trivial, fun _ _ => trivial⟩
  exact (hcopying.fillOutput (fun f => Upholds.abides (tends_finishSegment output f)) _ _ _).upholds

theorem tends_mergeRun {run : List Segment} (newest : Footer)
    (hrun : ∀ x ∈ run, x.Placed directory name) :
    Tends directory name n (fun m => ∀ x ∈ m.inputs, x.Placed directory name)
      (mergeRun run newest) := by
  refine tends_createSegment.then fun output hout => (tends_report _).then fun _ _ =>
    (tends_fillOutput _ _ _ _).attempt.then fun r _ => ?_
  have hinputs : ∀ x ∈ run.reverse, x.Placed directory name := fun x hx =>
    hrun x (List.mem_reverse.mp hx)
  split
  · exact Tends.throw _
  · exact (tends_removeSegment hout).then fun _ _ => Tends.throw _
  · split
    · exact (tends_removeSegment hout).then fun _ _ => Tends.pure hinputs
    · exact tends_syncDirectory.then fun _ _ => Tends.pure hinputs

theorem tends_prepareMerge (files : List Segment) :
    Tends directory name n (fun r => ∀ m, r = some m → ∀ x ∈ m.inputs, x.Placed directory name)
      (prepareMerge files) := by
  refine Tends.get fun s hs => ?_
  dsimp only
  split
  · exact Tends.pure nofun
  · split
    · exact Tends.throw _
    · rename_i run hrun
      split
      · exact Tends.pure nofun
      · refine (tends_mergeRun _ fun x hx => ?_).then fun m hm => Tends.pure ?_
        · obtain ⟨first, rfl⟩ := contiguousRun?_eq hrun
          exact hs.placed x (mem_completed.mp (List.mem_of_mem_drop (List.mem_of_mem_take hx))).1
        · rintro _ ⟨⟩
          exact hm

theorem tends_removeSegments {inputs : List Segment}
    (hin : ∀ x ∈ inputs, x.Placed directory name) :
    Tends directory name n (fun _ => True) (removeSegments inputs) := by
  induction inputs with
  | nil => exact Tends.pure trivial
  | cons x rest ih =>
      exact (tends_removeSegment (hin x (List.mem_cons_self ..))).then fun _ _ =>
        ih fun y hy => hin y (List.mem_cons_of_mem _ hy)

theorem tends_concludeMerge (m : Merge) : Tends directory name n (fun _ => True) (concludeMerge m) :=
  tends_syncDirectory.then fun _ _ => (tends_count _).then fun _ _ => tends_report _

theorem tends_merge {publish : List Relocation → ArchiveTask Unit}
    (hp : ∀ moves, Tends directory name n (fun _ => True) (publish moves)) (files : List Segment) :
    Tends directory name n (fun _ => True) (merge publish files) := by
  refine (tends_prepareMerge files).then fun m hm => ?_
  cases m with
  | none => exact Tends.pure trivial
  | some m =>
      exact (hp _).then fun _ _ => (tends_removeSegments (hm m rfl)).then fun _ _ =>
        tends_concludeMerge m

theorem tends_close : Tends directory name n (fun _ => True) close := by
  refine Tends.get fun s _ => ?_
  dsimp only
  split
  · refine Tends.then (Q := fun _ => True) ?_ fun _ _ => (tends_report _).then fun _ _ =>
      tends_syncDirectory
    exact tends_update fun _ => ⟨rfl, rfl, fun y hy => ⟨y, hy, rfl, rfl, rfl⟩⟩
  · exact tends_syncDirectory

theorem ensures_hostDisk {P : Disk → Prop} {Q : β → Disk → Prop} {I : Disk → Prop}
    {task : DiskTask β} (h : Ensures P Q (fun _ => I) task) :
    Ensures (fun h => P h.disk) (fun b h => Q b h.disk) (fun _ h => I h.disk) (Host.onDisk task) :=
  Ensures.zoom h (fun _ hs => hs) (fun _ _ _ _ ht => ht) fun _ _ _ _ ht => ht

theorem ensures_hostReport {P : Disk → Prop} {E : ArchiveError → Host → Prop} (event : Event) :
    Ensures (fun h => P h.disk) (fun _ h => P h.disk) E (Host.report event) :=
  Ensures.modify fun _ hs => hs

theorem ensures_unlinkIfPresent (directory : Path) (name : String) (n : Nat)
    {fs : List ListedFile} {j : UInt32} (hfs : ∀ f ∈ fs, f.index ≠ j) :
    Ensures (Lodges directory name n fs) (fun _ => Lodges directory name n fs)
      (fun _ => Lodges directory name n fs)
      (Disk.unlinkIfPresent (Path.join directory (SegmentName.ofIndex name j))) := by
  intro d hd
  have h := hd.unlinkIfPresent hfs
  rcases hrun : Disk.unlinkIfPresent (Path.join directory (SegmentName.ofIndex name j)) d with
    ⟨_ | _, d'⟩
  · rwa [hrun] at h
  · rwa [hrun] at h

theorem ensures_unlink (directory : Path) (name : String) (n : Nat)
    {fs : List ListedFile} {j : UInt32} (hfs : ∀ f ∈ fs, f.index ≠ j) :
    Ensures (Lodges directory name n fs) (fun _ => Lodges directory name n fs)
      (fun _ => Lodges directory name n fs)
      (Disk.unlink (Path.join directory (SegmentName.ofIndex name j))) := by
  intro d hd
  rcases Disk.unlink_cases (Path.join directory (SegmentName.ofIndex name j)) d with
    ⟨e, hrun⟩ | ⟨trail, file, slot, ht, hm, hrun⟩
  · rw [hrun]
    exact hd
  · rw [hrun]
    exact hd.unlinked ht (Disk.meaning_eq_ok hm).2 hfs

theorem nodup_enter {segments : List Segment} (h : (segments.map Segment.index).Nodup) (x : Segment) :
    ((enter segments x).map Segment.index).Nodup := by
  rw [enter, ((Segment.insertBy_perm _ x (without segments x.index)).map Segment.index).nodup_iff,
    List.map_cons, List.nodup_cons]
  refine ⟨fun hm => ?_, h.sublist (List.filter_sublist.map _)⟩
  obtain ⟨y, hy, he⟩ := List.mem_map.mp hm
  simpa [he] using (List.mem_filter.mp hy).2

structure Finds (directory : Path) (name : String) (n : Nat) (found : List Segment)
    (rest : List ListedFile) (d : Disk) : Prop where
  placed : ∀ x ∈ found, x.Placed directory name
  nodup : (found.map Segment.index).Nodup
  apart : ∀ x ∈ found, ∀ g ∈ rest, x.index ≠ g.index
  lodges : Lodges directory name n (found.map (Segment.listing name) ++ rest) d

theorem ensures_findSegment {found : Found} {g : ListedFile} {rest : List ListedFile}
    (hg : ∀ g' ∈ rest, g'.index ≠ g.index) :
    Ensures (fun h => Finds directory name n found.segments (g :: rest) h.disk)
      (fun found' h => Finds directory name n found'.segments rest h.disk)
      (fun _ h => Lodges directory name n [] h.disk)
      (findSegment directory found g.name g.slot g.index) := by
  have hless {d : Disk} (h : Finds directory name n found.segments (g :: rest) d) :
      Lodges directory name n (found.segments.map (Segment.listing name) ++ rest) d := by
    refine h.lodges.mono fun g' hm => ?_
    rcases List.mem_append.mp hm with hm | hm
    · exact List.mem_append_left _ hm
    · exact List.mem_append_right _ (List.mem_cons_of_mem _ hm)
  have hnamed {d : Disk} (h : Finds directory name n found.segments (g :: rest) d) :
      g.name = SegmentName.ofIndex name g.index :=
    (h.lodges.lodged g (List.mem_append_right _
      (List.mem_append_right _ (List.mem_cons_self ..)))).named
  unfold findSegment
  split
  · exact Ensures.throw fun _ hs => hs.lodges.bare
  · refine Ensures.bind (Ensures.ofExcept (fun _ _ _ hs => hs) fun _ _ hs => hs.lodges.bare) fun _ => ?_
    refine Ensures.get fun host hs => ?_
    refine Ensures.bind (Q := fun _ t => t = host) (Ensures.ofExcept (fun _ _ _ ht => ht) ?_)
      fun footer => ?_
    · rintro _ t rfl
      exact hs.lodges.bare
    cases footer with
    | some footer =>
        refine Ensures.bind (Q := fun _ h => Finds directory name n found.segments (g :: rest) h.disk)
          ?_ fun handle => (ensures_hostReport _).bind fun _ => Ensures.pure fun t ht => ?_
        · rintro t rfl
          exact ⟨hs.placed, hs.nodup, hs.apart, hs.lodges.congr rfl rfl⟩
        · let x : Segment := ⟨g.index, Path.join directory g.name, g.slot, handle, some footer⟩
          have hx : x.Placed directory name := by rw [Segment.Placed, ← hnamed ht]
          have hlisting : x.listing name = g := by
            rw [Segment.listing, ← hnamed ht]
          refine ⟨fun y hy => ?_, nodup_enter ht.nodup x, fun y hy g' hg' => ?_, ?_⟩
          · rcases mem_enter hy with rfl | hy
            · exact hx
            · exact ht.placed y hy
          · rcases mem_enter hy with rfl | hy
            · exact (hg g' hg').symm
            · exact ht.apart y hy g' (List.mem_cons_of_mem _ hg')
          · refine ht.lodges.mono fun g' hm => ?_
            rcases List.mem_append.mp hm with hm | hm
            · obtain ⟨y, hy, rfl⟩ := List.mem_map.mp hm
              rcases mem_enter hy with rfl | hy
              · exact List.mem_append_right _ (hlisting ▸ List.mem_cons_self ..)
              · exact List.mem_append_left _ (List.mem_map_of_mem hy)
            · exact List.mem_append_right _ (List.mem_cons_of_mem _ hm)
    | none =>
        have hgone : ∀ g' ∈ found.segments.map (Segment.listing name) ++ rest, g'.index ≠ g.index := by
          intro g' hm
          rcases List.mem_append.mp hm with hm | hm
          · obtain ⟨y, hy, rfl⟩ := List.mem_map.mp hm
            exact hs.apart y hy g (List.mem_cons_self ..)
          · exact hg g' hm
        have hunlink := ensures_hostDisk (ensures_unlink directory name n hgone)
        refine Ensures.bind (Q := fun _ h => Lodges directory name n
          (found.segments.map (Segment.listing name) ++ rest) h.disk) ?_ fun _ => ?_
        · rintro t rfl
          exact hless hs
        rw [hnamed hs]
        refine (hunlink.mono (fun _ ht => ht) (fun _ _ ht => ht) fun _ _ ht => ht.bare).bind
          fun _ => Ensures.pure fun t ht => ?_
        exact ⟨hs.placed, hs.nodup, fun y hy g' hg' =>
          hs.apart y hy g' (List.mem_cons_of_mem _ hg'), ht⟩

/-- A search keeps what each file keeps that it opens or removes. -/
theorem ensures_findSegments_of_step {P : List ListedFile → Found → Host → Prop}
    {E : ArchiveError → Host → Prop}
    (hstep : ∀ (f : ListedFile) (rest : List ListedFile) (found : Found),
      Ensures (P (f :: rest) found) (P rest) E (findSegment directory found f.name f.slot f.index))
    (files : List (String × Node)) (found : Found) :
    Ensures (P (ListedFile.all name files) found) (P []) E (findSegments directory name files found) := by
  induction files generalizing found with
  | nil => exact Ensures.pure fun _ hs => hs
  | cons e files ih =>
      obtain ⟨file, node⟩ := e
      cases node with
      | directory number => exact ih found
      | file slot =>
          unfold findSegments
          cases hi : SegmentName.index? name file with
          | none =>
              rw [ListedFile.all_cons_other hi]
              exact ih found
          | some index =>
              rw [ListedFile.all_cons_file hi]
              exact (hstep ⟨file, slot, index⟩ _ found).bind ih

theorem ensures_findSegments {files : List (String × Node)} (found : Found)
    (hnodup : ((ListedFile.all name files).map ListedFile.index).Nodup) :
    Ensures (fun h => Finds directory name n found.segments (ListedFile.all name files) h.disk)
      (fun found' h => Finds directory name n found'.segments [] h.disk)
      (fun _ h => Lodges directory name n [] h.disk) (findSegments directory name files found) := by
  refine Ensures.mono (ensures_findSegments_of_step (P := fun fs found h =>
      Finds directory name n found.segments fs h.disk ∧ (fs.map ListedFile.index).Nodup) ?_ files found)
    (fun _ hs => ⟨hs, hnodup⟩) (fun _ _ hs => hs.1) fun _ _ hs => hs
  rintro g rest found host ⟨hs, hnodup⟩
  obtain ⟨hne, hnodup⟩ := List.nodup_cons.mp hnodup
  have hapart : ∀ g' ∈ rest, g'.index ≠ g.index := fun g' hg' he =>
    hne (List.mem_map.mpr ⟨g', hg', he⟩)
  exact (ensures_findSegment hapart).mono (fun _ hs => hs) (fun _ _ hs => ⟨hs, hnodup⟩)
    (fun _ _ hs => hs) host hs

theorem ensures_removeCovered {fs : List ListedFile} {segments : List Segment}
    (hplaced : ∀ x ∈ segments, x.Placed directory name)
    (hapart : ∀ x ∈ segments, ∀ g ∈ fs, g.index ≠ x.index) :
    Ensures (fun h => Lodges directory name n fs h.disk) (fun _ h => Lodges directory name n fs h.disk)
      (fun _ h => Lodges directory name n fs h.disk) (removeCovered segments) := by
  induction segments with
  | nil => exact Ensures.pure fun _ hs => hs
  | cons x rest ih =>
      have hremove := ensures_hostDisk
        (ensures_unlinkIfPresent directory name n (hapart x (List.mem_cons_self ..)))
      rw [← hplaced x (List.mem_cons_self ..)] at hremove
      exact (ensures_hostReport _).bind fun _ => hremove.bind fun _ =>
        ih (fun y hy => hplaced y (List.mem_cons_of_mem _ hy)) fun y hy =>
          hapart y (List.mem_cons_of_mem _ hy)

theorem ensures_init :
    Ensures (fun h => Lodges directory name n [] h.disk) (fun a h => Attached directory name n ⟨a, h⟩)
      (fun _ h => Lodges directory name n [] h.disk) (init directory name) := by
  have hmake : Ensures (Lodges directory name n []) (fun _ => Lodges directory name n [])
      (fun _ => Lodges directory name n []) (Disk.makeDirectories directory) := by
    intro d hd
    rw [Disk.makeDirectories_run hd.home]
    exact hd
  have hlist : Ensures (Lodges directory name n [])
      (fun files d => ((ListedFile.all name files).map ListedFile.index).Nodup ∧
        Finds directory name n [] (ListedFile.all name files) d)
      (fun _ => Lodges directory name n []) (Disk.list directory) := by
    intro d hd
    rw [Disk.list_run hd.home]
    exact ⟨hd.nodup, nofun, List.Pairwise.nil, nofun, hd.sound, hd.home, hd.flat, hd.plain, hd.nodup,
      fun g hg => hd.lodged g (List.mem_append_left _ ((List.mem_append.mp hg).elim id id))⟩
  have hsync (fs : List ListedFile) : Ensures (Lodges directory name n fs)
      (fun _ => Lodges directory name n fs) (fun _ => Lodges directory name n []) (Disk.sync directory) := by
    intro d hd
    rw [Disk.sync_run hd.home]
    exact hd
  refine (ensures_hostDisk hmake).bind fun _ => (ensures_hostDisk hlist).bind fun files => ?_
  intro host hs
  refine (ensures_findSegments ⟨[], 0⟩ hs.1).bind (fun found => ?_) host hs.2
  intro host hs
  let kept := found.segments.filter fun x => !isCovered found.segments x
  have hkept : ∀ x ∈ kept, x ∈ found.segments := fun x hx => (List.mem_filter.mp hx).1
  have hlodges : Lodges directory name n (kept.map (Segment.listing name)) host.disk := by
    refine hs.lodges.mono fun g hg => List.mem_append_left _ ?_
    obtain ⟨x, hx, rfl⟩ := List.mem_map.mp hg
    exact List.mem_map_of_mem (hkept x hx)
  have hcovered : ∀ x ∈ found.segments.filter (isCovered found.segments),
      ∀ g ∈ kept.map (Segment.listing name), g.index ≠ x.index := by
    intro x hx g hg he
    obtain ⟨y, hy, rfl⟩ := List.mem_map.mp hg
    obtain ⟨hx, hcov⟩ := List.mem_filter.mp hx
    obtain ⟨hy, hnot⟩ := List.mem_filter.mp hy
    rcases cases_of_pairwise (List.pairwise_map.mp hs.nodup) hy hx with rfl | hne | hne
    · rw [hcov] at hnot
      cases hnot
    · exact hne he
    · exact hne he.symm
  refine ((ensures_removeCovered (fun x hx => hs.placed x (List.mem_filter.mp hx).1) hcovered).mono
    (fun _ ht => ht) (fun _ _ ht => ht) fun _ _ ht => ht.bare).bind (fun _ => ?_) host hlodges
  refine (ensures_hostDisk (hsync _)).bind fun _ => Ensures.pure fun t ht => ?_
  exact ⟨fun x hx => hs.placed x (hkept x hx), ht, rfl, rfl⟩

def Action.runAll : List Action → ArchiveTask Unit
  | [] => return ()
  | act :: acts => do
    let _ ← act.run.attempt
    runAll acts

/--
The machine, and the archive on it if one is open, as they come about from an empty directory: by
openings and by all that is done with an archive, each with whatever outcome, and by damage to what
the files hold. While a merge tells its moves, the archive may be in use.
-/
inductive Tended (directory : Path) (name : String) : Host → Option Archive → Prop
  | vacant {host : Host} (hd : host.disk.Vacant directory) : Tended directory name host none
  | opened {host host' : Host} {a : Option Archive} {r : Except ArchiveError Archive}
      (ht : Tended directory name host a) (hrun : init directory name host = (r, host')) :
      Tended directory name host' r.toOption
  | acted {s t : Hosted Archive} {act : Action} {r : Except ArchiveError Unit}
      (hs : Tended directory name s.host (some s.self)) (hrun : act.run s = (r, t))
      (hact : act = .reopen → r = .ok ()) : Tended directory name t.host (some t.self)
  | merged {s t : Hosted Archive} {files : List Segment} {acts : List Action}
      {r : Except ArchiveError Unit} (hs : Tended directory name s.host (some s.self))
      (hrun : merge (fun _ => Action.runAll acts) files s = (r, t)) (hacts : .reopen ∉ acts) :
      Tended directory name t.host (some t.self)
  | read {s t : Hosted Archive} {location : Int64} {part : Part} {buffer : Bytes}
      {r : Except ArchiveError (Nat × Bytes)} (hs : Tended directory name s.host (some s.self))
      (hrun : readInto location part buffer s = (r, t)) : Tended directory name t.host (some t.self)
  | closed {s t : Hosted Archive} {r : Except ArchiveError Unit}
      (hs : Tended directory name s.host (some s.self)) (hrun : close s = (r, t)) :
      Tended directory name t.host none
  | damaged {host : Host} {a : Option Archive} {d : Disk} (ht : Tended directory name host a)
      (hd : host.disk.Scrambled d) : Tended directory name { host with disk := d } a

theorem Tends.attached {r : Except ArchiveError α} (h : Tends directory name n Q task)
    (hs : Attached directory name n s) (hrun : task s = (r, t)) : Attached directory name n t := by
  rcases Ensures.run h hs hrun with ⟨a, -, ht, -⟩ | ⟨e, -, ht⟩
  · exact ht
  · exact ht

theorem tends_action {act : Action} (hact : act ≠ .reopen) :
    Tends directory name n (fun _ => True) act.run := by
  cases act with
  | start => exact tends_startWriting
  | store r => exact (tends_store r).then fun _ _ => Tends.pure trivial
  | finish minKey maxKey => exact tends_endWriting minKey maxKey
  | merge files => exact tends_merge (fun _ => Tends.pure trivial) files
  | reopen => exact absurd rfl hact
  | wait clock => exact fun _ hs => ⟨hs.mono rfl rfl rfl fun x hx => ⟨x, hx, rfl, rfl, rfl⟩, trivial⟩

theorem tends_runAll {acts : List Action} (h : .reopen ∉ acts) :
    Tends directory name n (fun _ => True) (Action.runAll acts) := by
  induction acts with
  | nil => exact Tends.pure trivial
  | cons act acts ih =>
      have hact : act ≠ .reopen := fun he => h (he ▸ List.mem_cons_self ..)
      exact (tends_action hact).attempt.then fun _ _ => ih fun hm => h (List.mem_cons_of_mem _ hm)

theorem Attached.reopened (h : Attached directory name n s) (hrun : reopen s = (.ok (), t)) :
    Attached directory name n t := by
  obtain ⟨_, s1, hclose, hrun⟩ := Task.of_bind_ok hrun
  have h1 := tends_close.attached h hclose
  obtain ⟨_, _, hget, hrun⟩ := Task.of_bind_ok hrun
  cases hget
  obtain ⟨a, s2, hopen, hrun⟩ := Task.of_bind_ok hrun
  cases hrun
  rw [h1.directory, h1.name] at hopen
  rcases hinit : init directory name s1.host with ⟨r, host⟩
  simp only [Hosted.onHost, Task.zoom, hinit] at hopen
  cases r with
  | error e => cases hopen
  | ok a' =>
      cases hopen
      rcases ensures_init.run h1.lodges.bare hinit with ⟨_, ⟨⟩, ha⟩ | ⟨_, ⟨⟩, -⟩
      exact ha

/-- Whatever has happened, the files are in their places, and an archive that is open is attached. -/
theorem Tended.attached {host : Host} {a : Option Archive} (ht : Tended directory name host a) :
    ∃ n, Lodges directory name n [] host.disk ∧
      ∀ a', a = some a' → Attached directory name n ⟨a', host⟩ := by
  have hgo {n : Nat} {t : Hosted Archive} (h : Attached directory name n t) :
      ∃ n, Lodges directory name n [] t.host.disk ∧
        ∀ a', some t.self = some a' → Attached directory name n ⟨a', t.host⟩ :=
    ⟨n, h.lodges.bare, fun _ he => Option.some.inj he ▸ h⟩
  induction ht with
  | vacant hd =>
      obtain ⟨hsound, n, hfind, hempty⟩ := hd
      refine ⟨n, ⟨hsound, hfind, ?_, ?_, ?_, ?_⟩, by simp⟩
      · simp [hempty]
      · simp [hempty, ListedFile.all]
      · simp [hempty, ListedFile.all]
      · simp [hempty, ListedFile.all]
  | opened _ hrun ih =>
      obtain ⟨n, hn, -⟩ := ih
      rcases ensures_init.run hn hrun with ⟨a, rfl, ha⟩ | ⟨e, rfl, he⟩
      · exact hgo ha
      · exact ⟨n, he, by simp [Except.toOption]⟩
  | @acted s t act r _ hrun hact ih =>
      obtain ⟨n, -, ha⟩ := ih
      by_cases hreopen : act = .reopen
      · obtain rfl := hact hreopen
        subst hreopen
        exact hgo ((ha _ rfl).reopened hrun)
      · exact hgo ((tends_action hreopen).attached (ha _ rfl) hrun)
  | merged _ hrun hacts ih =>
      obtain ⟨n, -, ha⟩ := ih
      exact hgo ((tends_merge (fun _ => tends_runAll hacts) _).attached (ha _ rfl) hrun)
  | read _ hrun ih =>
      obtain ⟨n, -, ha⟩ := ih
      exact hgo ((tends_readInto _ _ _).attached (ha _ rfl) hrun)
  | closed _ hrun ih =>
      obtain ⟨n, -, ha⟩ := ih
      exact ⟨n, (tends_close.attached (ha _ rfl) hrun).lodges.bare, by simp⟩
  | damaged _ hd ih =>
      obtain ⟨n, hn, ha⟩ := ih
      exact ⟨n, hn.congr hd.1 hd.2, fun a' heq => ⟨(ha a' heq).placed,
        (ha a' heq).lodges.congr hd.1 hd.2, (ha a' heq).directory, (ha a' heq).name⟩⟩

theorem Run.tended {h : History} (hr : Run directory name s h) :
    Tended directory name s.host (some s.self) := by
  induction hr with
  | opened hd hinit => exact .opened (.vacant hd) hinit
  | succeeded _ hs _ ih => exact .acted ih hs fun _ => rfl
  | failed _ hs hact _ ih => exact .acted ih hs fun he => absurd he hact

end Archive

end MeteredStorage
