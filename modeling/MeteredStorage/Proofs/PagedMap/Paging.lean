import MeteredStorage.Proofs.Archive.Aligning
import MeteredStorage.Proofs.PagedMap.Recovering
import MeteredStorage.Proofs.PagedMap.Reaching

namespace MeteredStorage

open MeteredStorage.Task (Ensures Upholds)
open Archive (Houses)

section Page

variable {K : Type} [FixedKey K] {d : Dimensions} {bucket : Nat} {bs changes : Bindings K}

theorem Resident.changed [DecidableEq K] (h : Resident d bucket bs) (hc : Placed d bucket changes)
    (hroom : (ChangeSet.setValues changes bs).length ≤ d.form.perPage) :
    Resident d bucket (ChangeSet.setValues changes bs) :=
  ⟨h.bucket_lt, hroom, ChangeSet.nodup_setValues h.keys changes, h.placed.setValues hc⟩

theorem Resident.isPage (h : Resident d bucket bs) : (pageRecord d.form bucket bs).IsPage K d :=
  ⟨bucket, bs, h, rfl⟩

variable [DecidableEq K] [LawfulKey K]

theorem Record.IsPage.size (hd : Shaped K d) (r : Record) (h : r.IsPage K d) :
    r.size = Page.recordSize :=
  (h.paged hd).size

end Page

theorem PagedMap.readPage_page {K : Type} {s t : MapState K} {bucket : Nat} {location : Int64}
    {buffer page : Bytes} (h : readPage s bucket location buffer = (.page page, t)) :
    ∃ n, (s.inArchive (Archive.readInto location .data buffer)).1 = .ok (n, page) ∧
      Page.validate t.self.dimensions.form bucket page = .ok () := by
  rw [readPage] at h
  split at h
  · rename_i n bytes u heq
    rw [checkPage] at h
    split at h
    · cases h
    · split at h
      · rename_i hvalid
        cases h
        exact ⟨n, by rw [heq], hvalid⟩
      · cases h
  · dsimp only at h
    split at h <;> cases h
  · cases h

theorem Page.index_of_validate {f : PageForm} {bucket : Nat} {page : Bytes}
    (h : validate f bucket page = .ok ()) : (index page).toInt = bucket := by
  rw [validate] at h
  split at h
  · cases h
  · rename_i hindex
    exact Classical.byContradiction hindex

variable {K α : Type} [FixedKey K]

/--
The archive of the map has nothing but pages, the slots lead to where pages can begin, and the
segments `held` are completed. That a slot leads to the page of its bucket is not part of it.
-/
structure Paginated (d : Dimensions) (held : List Segment) (s : MapState K) : Prop where
  dimensions : s.self.dimensions = d
  suited : PagedMap.dimensionsFor K d.mapSize = .ok d
  houses : Houses s.self.name (Record.IsPage K d) held s.archived
  slots : ∀ b, Aligned Page.recordSize (s.self.table.get b)
  collected : ∀ changes, s.self.changes = some changes → Collected d changes

namespace Paginated

variable {s t : MapState K} {d : Dimensions} {held lost : List Segment} {location : Int64} {bucket : Nat}

theorem shaped (h : Paginated d held s) : Shaped K d := shaped_of_dimensionsFor h.suited

theorem forget (h : Paginated d held s) : Paginated d [] s := { h with houses := h.houses.forget }

theorem alike (h : Paginated d held s) (ha : Alike s t) : Paginated d held t where
  dimensions := ha.dimensions.trans h.dimensions
  suited := h.suited
  houses := by
    rw [ha.name]
    exact h.houses.same ⟨ha.directory, ha.archiveName, ha.writer⟩ ha.segments ha.disk
  slots := by
    rw [ha.table]
    exact h.slots
  collected := by
    rw [ha.changes]
    exact h.collected

theorem withArchive {u : Hosted Archive} (h : Paginated d held s)
    (hu : Houses s.self.name (Record.IsPage K d) lost u) : Paginated d lost (s.withArchive u) where
  dimensions := h.dimensions
  suited := h.suited
  houses := hu
  slots := h.slots
  collected := h.collected

theorem upheld {task : ArchiveTask α} {r : Except ArchiveError α} {Q : α → Prop}
    (h : Paginated d held s) (ht : Upholds (Houses s.self.name (Record.IsPage K d) held) Q task)
    (hrun : s.inArchive task = (r, t)) : Paginated d held t ∧ ∀ a, r = .ok a → Q a := by
  rcases MapState.inArchive_cases ht h.houses hrun with ⟨a, u, rfl, rfl, hu, hq⟩ | ⟨e, u, rfl, rfl, hu⟩
  · exact ⟨h.withArchive hu, fun _ he => Except.ok.inj he ▸ hq⟩
  · exact ⟨h.withArchive hu, nofun⟩

theorem collecting (h : Paginated d held s) (ha : t.self.archive = s.self.archive)
    (hr : Remains s t) (ht : t.self.table = s.self.table) (hd : t.host.disk = s.host.disk)
    (hc : ∀ changes, t.self.changes = some changes → Collected d changes) : Paginated d held t where
  dimensions := hr.dimensions.trans h.dimensions
  suited := h.suited
  houses := by
    rw [hr.name]
    refine h.houses.same ⟨?_, ?_, ?_⟩ ?_ hd
    · exact congrArg Archive.directory ha
    · exact congrArg Archive.name ha
    · exact congrArg Archive.writer ha
    · exact congrArg Archive.segments ha
  slots := by
    rw [ht]
    exact h.slots
  collected := hc

theorem slotted (h : Paginated d held s) (hl : Aligned Page.recordSize location) (bucket : Nat) :
    Paginated d held (s.update fun m => { m with table := m.table.set bucket location }) where
  dimensions := h.dimensions
  suited := h.suited
  houses := h.houses
  slots b := by
    change Aligned Page.recordSize ((s.self.table.set bucket location).get b)
    rw [PageTable.get_set]
    split
    · exact hl
    · exact h.slots b
  collected := h.collected

theorem relocate (h : Paginated d held s) {move : Relocation} (hl : Aligned Page.recordSize move.target) :
    Paginated d held { s with self := (s.self.relocate move).1 } := by
  rw [PagedMap.relocate]
  split
  · exact h.slotted hl move.key.toInt.toNat
  · exact h

/-- What is read where a page can begin, and is not refused, is the page of the bucket. -/
theorem page_of_readPage [DecidableEq K] [LawfulKey K] (h : Paginated d held s)
    (hl : Aligned Page.recordSize location) {buffer page : Bytes} (hb : buffer.length = pageSize)
    (hrun : PagedMap.readPage s bucket location buffer = (.page page, t)) :
    ∃ bs : Bindings K, Resident d bucket bs ∧ page = Page.image d.form bucket bs := by
  obtain ⟨n, hread, hvalid⟩ := PagedMap.readPage_page hrun
  have hfetch : (s.self.archive.fetch s.host.disk location .data buffer.length).map
      (fun bytes => (bytes.length, Bytes.overlay 0 bytes buffer)) = .ok (n, page) :=
    (Archive.readInto_eq s.archived location .data buffer).symm.trans hread
  cases hgo : s.self.archive.fetch s.host.disk location .data buffer.length with
  | error e =>
      rw [hgo] at hfetch
      cases hfetch
  | ok bytes =>
      rw [hgo] at hfetch
      cases hfetch
      obtain ⟨r, ⟨b, bs, hr, rfl⟩, rfl⟩ := h.houses.fetch (Record.IsPage.size h.shaped) hl hgo
      have hlength : (Page.image d.form b bs).length = buffer.length :=
        (Page.length_image h.shaped.keySize hr.room).trans hb.symm
      have hpage : Bytes.overlay 0 (pageRecord d.form b bs).data buffer = Page.image d.form b bs :=
        Bytes.overlay_all hlength
      rw [hpage] at hvalid ⊢
      -- Where an index is in use again the page may be that of another bucket, which the check refuses.
      have hindex := Page.index_of_validate hvalid
      rw [Page.toInt_index_image (h.shaped.lt hr.bucket_lt)] at hindex
      obtain rfl := Int.ofNat.inj hindex
      exact ⟨bs, hr, rfl⟩

end Paginated

inductive FlushStage.Paginated (d : Dimensions) : FlushStage K → Prop
  | opening : Paginated d .opening
  | next : Paginated d .next
  | reading {bucket : Nat} {changes : Bindings K} {location : Int64} (hb : bucket < d.buckets)
      (hc : Placed d bucket changes) (hl : Aligned Page.recordSize location) :
      Paginated d (.reading bucket changes location)
  | storing {bucket : Nat} {bs : Bindings K} (hr : Resident d bucket bs) :
      Paginated d (.storing bucket (Page.image d.form bucket bs))
  | publishing {bucket : Nat} {location : Int64} (hl : Aligned Page.recordSize location) :
      Paginated d (.publishing bucket location)
  | closing {failure : Option MapError} : Paginated d (.closing failure)

structure Flush.Paginated (d : Dimensions) (f : Flush K) : Prop where
  bounded : ∀ c ∈ f.todo, c.1 < d.buckets
  placed : ∀ c ∈ f.todo, Placed d c.1 c.2
  buffer : f.buffer.length = pageSize
  stage : f.stage.Paginated d

def MapMerge.held (m : MapMerge) : List Segment :=
  match m.stage with
  | .publishing _ => m.merge.inputs
  | .removing segments => segments

def MapMerge.Paginated (m : MapMerge) : Prop :=
  ∀ moves, m.stage = .publishing moves → ∀ move ∈ moves, Aligned Page.recordSize move.target

def MergeStatus.held : MergeStatus → List Segment
  | running m => m.held
  | _ => []

section Steps

variable {s t : MapState K} {d : Dimensions} {held : List Segment} {bucket : Nat}
  {f : Flush K} {changes bs : Bindings K} {m : MapMerge} {p : Progress MapMerge (Except MapError Nat)}

theorem Flush.Paginated.staged (hf : f.Paginated d) {stage : FlushStage K} (hs : stage.Paginated d) :
    (f.withStage stage).Paginated d :=
  ⟨hf.bounded, hf.placed, hf.buffer, hs⟩

namespace Paginated

theorem flushStart (h : Paginated d held s) {p : Progress (Flush K) (Except MapError Unit)}
    (hstart : Flush.start s = (p, t)) :
    Paginated d held t ∧ ∀ f, p = .running f → f.Paginated d := by
  obtain ⟨u, hu, ⟨r, hgo, -⟩ | ⟨changes, hchanges, hgo⟩⟩ := Flush.start_cases s
  · rw [hgo] at hstart
    cases hstart
    exact ⟨h.collecting hu.archive hu.remains hu.table (by rw [hu.host]) hu.nothing, nofun⟩
  · rw [hgo] at hstart
    cases hstart
    have hc := h.collected changes hchanges
    refine ⟨h.collecting hu.archive hu.remains hu.table (by rw [hu.host]) hu.nothing, fun f he => ?_⟩
    cases he
    exact ⟨hc.bounded, hc.placed, Bytes.length_zeros _, .opening⟩

theorem flushClose (h : Paginated d held s) (f : Flush K) (failure : Option MapError) :
    Paginated d held (f.closeStep failure s).2 := by
  rcases hrun : s.inArchive (Archive.endWriting 0 (Int64.ofInt s.self.dimensions.buckets)) with ⟨r, t⟩
  have ht := (h.upheld (Archive.upholds_endWriting _ _) hrun).1.alike (.rested t)
  rw [Flush.closeStep]
  dsimp only
  rw [hrun]
  split
  · exact ht
  · exact ht.alike (.report _ _)
  · exact ht.alike (.report _ _)
  · exact ht

theorem startWriting (h : Paginated d held s) : Paginated d held (PagedMap.startWriting s).2 := by
  rcases PagedMap.startWriting_cases s with ⟨e, hgo⟩ | hgo
  · rw [hgo]
    exact h
  · rw [hgo]
    refine h.collecting rfl ⟨rfl, rfl, rfl, rfl⟩ rfl rfl fun _ he => ?_
    cases he
    exact .nil d

theorem mergeStep (h : Paginated d m.held s) (hm : m.Paginated) (hstep : m.step s = (p, t)) :
    Paginated d (MergeStatus.ofProgress p).held t ∧ ∀ m', p = .running m' → m'.Paginated := by
  obtain ⟨merge, files, relocated, stage⟩ := m
  match stage with
  | .publishing (move :: moves) =>
      cases hstep
      have hmoves := hm _ rfl
      refine ⟨h.relocate (hmoves move (List.mem_cons_self ..)), fun _ he => ?_⟩
      cases he
      intro _ hs
      cases hs
      exact fun move hmove => hmoves move (List.mem_cons_of_mem _ hmove)
  | .publishing [] =>
      cases hstep
      refine ⟨h, fun _ he => ?_⟩
      cases he
      intro _ hs
      cases hs
  | .removing (segment :: segments) =>
      rcases hrun : s.inArchive (Archive.removeSegment segment) with ⟨r, u⟩
      simp only [MapMerge.step, hrun] at hstep
      rcases MapState.inArchive_cases Archive.ensures_removeSegment h.houses hrun with
        ⟨_, u, rfl, rfl, hu⟩ | ⟨e, u, rfl, rfl, hu⟩
      · cases hstep
        refine ⟨h.withArchive hu, fun _ he => ?_⟩
        cases he
        intro _ hs
        cases hs
      · cases hstep
        exact ⟨(h.withArchive hu).forget, Progress.forall_done _⟩
  | .removing [] =>
      rcases hrun : s.inArchive (Archive.concludeMerge merge) with ⟨r, u⟩
      have hu := (h.upheld (Archive.upholds_concludeMerge merge) hrun).1
      simp only [MapMerge.step, hrun] at hstep
      cases r with
      | ok _ =>
          cases hstep
          exact ⟨(hu.alike (.merged u)).alike (.report _ _), Progress.forall_done _⟩
      | error e =>
          cases hstep
          exact ⟨hu, Progress.forall_done _⟩

theorem mergeRun (h : Paginated d m.held s) (hm : m.Paginated) : Paginated d [] (m.run s).2 := by
  induction m, s using MapMerge.run.induct with
  | case1 m s r s' hstep =>
      rw [MapMerge.run_of_done hstep]
      exact (h.mergeStep hm hstep).1
  | case2 m s m' s' hstep ih =>
      rw [MapMerge.run_of_running hstep]
      obtain ⟨h', hm'⟩ := h.mergeStep hm hstep
      exact ih h' (hm' m' rfl)

variable [DecidableEq K]

theorem put (h : Paginated d held s) (key : K) (value : Int64) :
    Paginated d held (PagedMap.put key value s).2 := by
  rcases PagedMap.put_cases s key value with ⟨-, hgo⟩ | ⟨changes, hchanges, hgo⟩
  · rw [hgo]
    exact h
  · rw [hgo]
    refine h.collecting rfl ⟨rfl, rfl, rfl, rfl⟩ rfl rfl fun _ he => ?_
    cases he
    rw [PagedMap.place, h.dimensions]
    exact (h.collected changes hchanges).insert (Nat.mod_lt _ h.shaped.buckets_pos) rfl value

variable [LawfulKey K]

/-- The page of a bucket stays one of this bucket when changes of it are applied. -/
theorem compose (h : Paginated d held s) (hf : f.Paginated d) (hr : Resident d bucket bs)
    (hc : Placed d bucket changes) :
    (f.compose bucket changes (Page.image d.form bucket bs) s).1.Paginated d := by
  rw [Flush.compose, h.dimensions]
  rcases Flush.applyChanges_image h.shaped.keySize bucket changes hr.room with ⟨hgo, hroom⟩ |
    ⟨e, page, hgo, -⟩
  · have hchanged := hr.changed hc hroom
    rw [hgo]
    exact ⟨hf.bounded, hf.placed, Page.length_image h.shaped.keySize hroom, .storing hchanged⟩
  · rw [hgo]
    exact hf.staged .closing

theorem readStep (h : Paginated d held s) (hf : f.Paginated d) (hb : bucket < d.buckets)
    (hc : Placed d bucket changes) {location : Int64} (hl : Aligned Page.recordSize location) :
    (f.readStep bucket changes location s).1.Paginated d := by
  rw [Flush.readStep]
  split
  · have hfresh : Resident d bucket ([] : Bindings K) :=
      ⟨hb, Nat.zero_le _, List.Pairwise.nil, by simp [Placed]⟩
    rw [Page.fresh_eq (K := K) d.form bucket]
    exact h.compose hf hfresh hc
  · have hread := PagedMap.alike_readPage s bucket location f.buffer
    split
    · rename_i page u heq
      rw [heq] at hread
      obtain ⟨bs, hr, rfl⟩ := h.page_of_readPage hl hf.buffer heq
      exact (h.alike hread).compose hf hr hc
    · rename_i target u heq
      obtain ⟨rfl, -⟩ := PagedMap.readPage_moved (congrArg Prod.fst heq)
      exact hf.staged (.reading hb hc (h.slots bucket))
    · exact hf.staged .closing

theorem flushStep (h : Paginated d held s) (hf : f.Paginated d)
    {p : Progress (Flush K) (Except MapError Unit)} (hstep : f.step s = (p, t)) :
    Paginated d held t ∧ ∀ f', p = .running f' → f'.Paginated d := by
  obtain ⟨todo, size, buffer, stage⟩ := f
  obtain ⟨hbounded, hplaced, hbuffer, hstage⟩ := id hf
  cases hstage with
  | opening =>
      rcases hrun : s.inArchive Archive.startWriting with ⟨r, u⟩
      have hu := (h.upheld Archive.upholds_startWriting hrun).1
      simp only [Flush.step, hrun] at hstep
      cases r with
      | ok _ =>
          cases hstep
          exact ⟨hu, Progress.forall_running (hf.staged .next)⟩
      | error e =>
          cases hstep
          exact ⟨hu.alike (.rested u), Progress.forall_done _⟩
  | next =>
      cases todo with
      | nil =>
          cases hstep
          exact ⟨h, Progress.forall_running (hf.staged .closing)⟩
      | cons c todo =>
          cases hstep
          refine ⟨h, fun _ he => ?_⟩
          cases he
          have hc := List.mem_cons_self (a := c) (l := todo)
          exact ⟨fun c hc => hbounded c (List.mem_cons_of_mem _ hc),
            fun c hc => hplaced c (List.mem_cons_of_mem _ hc), hbuffer,
            .reading (hbounded c hc) (hplaced c hc) (h.slots c.1)⟩
  | @reading bucket changes location hb hc hl =>
      have hnext := h.readStep hf hb hc hl
      obtain ⟨f', s', hgo, ha, -⟩ := Flush.readStep_cases
        ⟨todo, size, buffer, .reading bucket changes location⟩ bucket changes location s
      simp only [Flush.step, hgo] at hstep
      cases hstep
      rw [hgo] at hnext
      exact ⟨h.alike ha, Progress.forall_running hnext⟩
  | @storing bucket bs hr =>
      rcases hrun : s.inArchive (Archive.store ⟨Int64.ofInt bucket, Page.image d.form bucket bs⟩) with
        ⟨r, u⟩
      obtain ⟨hu, hl⟩ := h.upheld
        (Archive.upholds_store (Record.IsPage.size h.shaped) hr.isPage) hrun
      simp only [Flush.step, hrun] at hstep
      cases r with
      | ok location =>
          cases hstep
          exact ⟨hu, Progress.forall_running (hf.staged (.publishing (hl location rfl)))⟩
      | error e =>
          cases hstep
          exact ⟨hu, Progress.forall_running (hf.staged .closing)⟩
  | @publishing bucket location hl =>
      cases hstep
      exact ⟨(h.slotted hl bucket).collecting rfl ⟨rfl, rfl, rfl, rfl⟩ rfl rfl h.collected,
        Progress.forall_running (hf.staged .next)⟩
  | @closing failure =>
      have ht := h.flushClose ⟨todo, size, buffer, .closing failure⟩ failure
      cases hstep
      exact ⟨ht, Progress.forall_done _⟩

theorem flushRun (h : Paginated d held s) (hf : f.Paginated d) : Paginated d held (f.run s).2 := by
  induction f, s using Flush.run.induct with
  | case1 f s r s' hstep =>
      rw [Flush.run_of_done hstep]
      exact (h.flushStep hf hstep).1
  | case2 f s f' s' hstep ih =>
      rw [Flush.run_of_running hstep]
      obtain ⟨h', hf'⟩ := h.flushStep hf hstep
      exact ih h' (hf' f' rfl)

theorem endWriting (h : Paginated d held s) : Paginated d held (PagedMap.endWriting s).2 := by
  rcases hstart : Flush.start s with ⟨p, t⟩
  obtain ⟨ht, hf⟩ := h.flushStart hstart
  rw [PagedMap.endWriting, hstart]
  cases p with
  | done r => exact ht
  | running f => exact ht.flushRun (hf f rfl)

theorem mergePrepare (h : Paginated d [] s) (files : List Segment)
    (hrun : MapMerge.prepare files s = (p, t)) :
    Paginated d (MergeStatus.ofProgress p).held t ∧ ∀ m, p = .running m → m.Paginated := by
  rcases hgo : s.inArchive (Archive.prepareMerge files) with ⟨r, u⟩
  rw [MapMerge.prepare, hgo] at hrun
  rcases MapState.inArchive_cases (Archive.ensures_prepareMerge (Record.IsPage.size h.shaped) files)
    h.houses hgo with ⟨m, u, rfl, rfl, hu, hmoves⟩ | ⟨e, u, rfl, rfl, hu⟩
  · have ht := h.withArchive hu
    cases m with
    | none =>
        cases hrun
        exact ⟨(ht.alike (.merged _)).alike (.report _ _), Progress.forall_done _⟩
    | some m =>
        cases hrun
        refine ⟨ht, fun _ he => ?_⟩
        cases he
        intro moves hs
        cases hs
        exact hmoves m rfl
  · cases hrun
    exact ⟨h.withArchive hu, Progress.forall_done _⟩

theorem mergeStart (h : Paginated d [] s) {limit : UInt64} (hrun : MapMerge.start limit s = (p, t)) :
    Paginated d (MergeStatus.ofProgress p).held t ∧ ∀ m, p = .running m → m.Paginated := by
  rw [MapMerge.start] at hrun
  split at hrun
  · cases hrun
    exact ⟨h, Progress.forall_done _⟩
  · exact (h.alike (.report s _)).mergePrepare _ hrun

theorem merge (h : Paginated d [] s) (limit : UInt64) :
    Paginated d [] (PagedMap.merge limit s).2 := by
  rcases hstart : MapMerge.start limit s with ⟨p, t⟩
  obtain ⟨ht, hm⟩ := h.mergeStart hstart
  rw [PagedMap.merge, hstart]
  cases p with
  | done r => exact ht
  | running m => exact ht.mergeRun (hm m rfl)

end Paginated

end Steps

structure System.Paginated (d : Dimensions) (sys : System K) : Prop where
  map : MeteredStorage.Paginated d sys.merge.held sys.map
  writer : ∀ f, sys.writer = .running f → f.Paginated d
  merge : ∀ m, sys.merge = .running m → m.Paginated

section Turns

variable [DecidableEq K] [LawfulKey K] {d : Dimensions} {sys : System K} {s : MapState K}

theorem System.Paginated.step (h : sys.Paginated d) (turn : Turn K) : (sys.step turn).Paginated d := by
  obtain ⟨hmap, hwriter, hmerge⟩ := id h
  cases turn with
  | write =>
      rw [System.step]
      split
      · obtain ⟨ht, hf⟩ := hmap.flushStart rfl
        exact ⟨ht, fun f he => hf f (FlushStatus.running_of_ofProgress he), hmerge⟩
      · rename_i f hrunning
        obtain ⟨ht, hf⟩ := hmap.flushStep (hwriter f hrunning) rfl
        exact ⟨ht, fun f he => hf f (FlushStatus.running_of_ofProgress he), hmerge⟩
      · exact h
  | merge limit =>
      rw [System.step]
      split
      · rename_i hwaiting
        rw [hwaiting] at hmap
        dsimp only
        split
        · exact ⟨hmap, hwriter, fun _ he => by cases he⟩
        · exact ⟨hmap.alike (.report sys.map _), hwriter, fun _ he => by cases he⟩
      · rename_i files hchosen
        rw [hchosen] at hmap
        obtain ⟨ht, hm⟩ := hmap.mergePrepare files rfl
        exact ⟨ht, hwriter, fun m he => hm m (MergeStatus.running_of_ofProgress he)⟩
      · rename_i m hrunning
        rw [hrunning] at hmap
        obtain ⟨ht, hm⟩ := hmap.mergeStep (hmerge m hrunning) rfl
        exact ⟨ht, hwriter, fun m he => hm m (MergeStatus.running_of_ofProgress he)⟩
      · exact h
  | get key notFound => exact ⟨hmap.alike (.gotten sys.map), hwriter, hmerge⟩
  | advance i =>
      rw [System.step]
      split
      · exact h
      · rename_i g _
        exact ⟨hmap.alike (g.alike_advance sys.map), hwriter, hmerge⟩
  | wait clock => exact ⟨hmap.alike (.waited sys.map clock), hwriter, hmerge⟩

theorem System.Paginated.run (h : sys.Paginated d) (turns : List (Turn K)) :
    (sys.run turns).Paginated d := by
  induction turns generalizing sys with
  | nil => exact h
  | cons turn turns ih => exact ih (h.step turn)

end Turns

theorem PageTable.aligned_empty (b : Nat) : Aligned Page.recordSize (empty.get b) := by
  change Page.recordSize ∣ Location.offset 0
  decide

theorem PagedMap.aligned_rebuild {d : Dimensions} {visits : List (Int64 × Int64)} {table : PageTable}
    (hv : ∀ visit ∈ visits, Aligned Page.recordSize visit.2)
    (ht : ∀ b, Aligned Page.recordSize (table.get b)) (ignored b : Nat) :
    Aligned Page.recordSize ((rebuild d visits table ignored).1.get b) := by
  induction visits generalizing table ignored with
  | nil => exact ht b
  | cons visit visits ih =>
      obtain ⟨key, location⟩ := visit
      have hrest := fun visit hvisit => hv visit (List.mem_cons_of_mem _ hvisit)
      rw [rebuild]
      split
      · rename_i bucket _
        refine ih hrest (fun c => ?_) ignored
        rw [PageTable.get_set]
        split
        · exact hv _ (List.mem_cons_self ..)
        · exact ht c
      · exact ih hrest ht (ignored + 1)

section Opening

variable [DecidableEq K] [LawfulKey K] {d : Dimensions} {s t : MapState K} {host host' : Host} {a : Archive}
  {name : String} {directory : Path} {mapSize : UInt64} {m : PagedMap K}

theorem Paginated.opened (hinit : Archive.init directory name host = (.ok a, host'))
    (hd : PagedMap.dimensionsFor K mapSize = .ok d) (hdir : a.directory = directory)
    (h : Houses name (Record.IsPage K d) [] ⟨a, host'⟩) :
    ∃ m host'', PagedMap.init K directory name mapSize host = (.ok m, host'') ∧
      m.name = name ∧ Paginated d [] ⟨m, host''⟩ := by
  have hd' : PagedMap.dimensionsFor K d.mapSize = .ok d := by
    rw [mapSize_of_dimensionsFor hd, hd]
  obtain ⟨n, hhome⟩ := h.home
  obtain ⟨es, hreplay, hes⟩ := h.replay_run (Record.IsPage.size (shaped_of_dimensionsFor hd))
  obtain ⟨host'', hopen, hdisk⟩ := PagedMap.ofArchive_of_replay hhome hdir hd hreplay name
  rw [PagedMap.init_of_archive hinit]
  refine ⟨_, host'', hopen, rfl, rfl, hd', h.same ⟨rfl, rfl, rfl⟩ rfl hdisk, ?_, nofun⟩
  refine PagedMap.aligned_rebuild (fun visit hvisit => ?_) PageTable.aligned_empty 0
  obtain ⟨e, he, rfl⟩ := List.mem_map.mp hvisit
  exact (hes e he).2.1

theorem paginated_of_vacant (hd : host.disk.Vacant directory)
    (hinit : PagedMap.init K directory name mapSize host = (.ok m, host')) :
    ∃ d, Paginated d [] ⟨m, host'⟩ := by
  cases hdimensions : PagedMap.dimensionsFor K mapSize with
  | error e =>
      obtain ⟨a, host1, harchive, -⟩ := Archive.houses_of_vacant hd name fun _ => True
      rw [PagedMap.init_of_archive harchive, PagedMap.ofArchive, hdimensions] at hinit
      cases hinit
  | ok d =>
      obtain ⟨a, host1, harchive, hdir, hs⟩ := Archive.houses_of_vacant hd name (Record.IsPage K d)
      obtain ⟨m', host2, hopen, -, h⟩ := Paginated.opened harchive hdimensions hdir hs
      rw [hopen] at hinit
      cases hinit
      exact ⟨d, h⟩

namespace Paginated

omit [DecidableEq K] [LawfulKey K] in
theorem close (h : Paginated d [] s) : Paginated d [] (PagedMap.close s).2 := by
  have honArchive {s : MapState K} (h : Paginated d [] s) :
      Paginated d [] (PagedMap.onArchive Archive.close s).2 := by
    rw [PagedMap.onArchive]
    split
    · exact (h.upheld Archive.upholds_close ‹_›).1
    · exact (h.upheld Archive.upholds_close ‹_›).1
  rw [PagedMap.close, Task.bind_ok (Task.get_run s)]
  split
  · exact honArchive (h.alike (.report s _))
  · exact honArchive h

theorem reopen (h : Paginated d [] s) : Paginated d [] (PagedMap.reopen s).2 := by
  have hclose := h.close
  rcases hrun : PagedMap.close s with ⟨r, t⟩
  rw [hrun] at hclose
  cases r with
  | error e =>
      rw [PagedMap.reopen, Task.bind_error hrun]
      exact hclose
  | ok _ =>
      -- A page never ends in the marks of a footer, so a segment left open is not taken for a completed one.
      obtain ⟨a, host', harchive, hdir, hs⟩ := hclose.houses.init_run
        (fun rs index hrs => Segment.completeFooter?_of_paged
          (fun r hr => (hrs r hr).paged h.shaped) index) (rfl : t.host.disk = t.host.disk)
      obtain ⟨m, host'', hopen, -, hm⟩ := Paginated.opened harchive h.suited hdir hs
      have hinit : Hosted.onHost (PagedMap.init K t.self.archive.directory t.self.name
          t.self.dimensions.mapSize) t = (.ok m, ⟨t.self, host''⟩) := by
        rw [hclose.dimensions]
        exact Task.zoom_ok hopen
      rw [PagedMap.reopen, Task.bind_ok hrun]
      simp only [Task.bind_run, Task.get_run, hinit, Task.modify_run]
      exact hm

theorem action (h : Paginated d [] s) (act : PagedMap.Action K) : Paginated d [] (act.run s).2 := by
  cases act with
  | start => exact h.startWriting
  | put key value => exact h.put key value
  | finish => exact h.endWriting
  | merge limit =>
      rw [PagedMap.Action.run, Task.snd_ignore]
      exact h.merge limit
  | find key notFound =>
      rw [PagedMap.Action.run, Task.snd_ignore]
      exact h.alike (PagedMap.alike_find key notFound s)
  | reopen => exact h.reopen
  | wait clock => exact h.alike (.waited s clock)

theorem worked (h : Paginated d [] s) (turns : List (Turn K)) :
    Paginated d [] ((System.start s).run turns).map := by
  have hstart : (System.start s).Paginated d := ⟨h, nofun, nofun⟩
  exact (hstart.run turns).map.forget

end Paginated

end Opening

/--
The states of a map that is used from an empty directory on. Whatever is done with it may have failed,
and a session and a merge may have been left at any of their steps; the indices may have run over.
-/
inductive Used (K : Type) [DecidableEq K] [FixedKey K] (directory : Path) (name : String)
    (mapSize : UInt64) : MapState K → Prop
  | opened {host host' : Host} {m : PagedMap K} (hd : host.disk.Vacant directory)
      (h : PagedMap.init K directory name mapSize host = (.ok m, host')) :
      Used K directory name mapSize ⟨m, host'⟩
  | acted {s s' : MapState K} {act : PagedMap.Action K} {r : Except MapError Unit}
      (hu : Used K directory name mapSize s) (h : act.run s = (r, s')) : Used K directory name mapSize s'
  | shuffled {s : MapState K} {changes changes' : ChangeSet K} (hu : Used K directory name mapSize s)
      (hs : s.self.changes = some changes) (h : ChangeSet.Rearranged changes changes') :
      Used K directory name mapSize (s.update fun m => { m with changes := some changes' })
  | worked {s : MapState K} (turns : List (Turn K)) (hu : Used K directory name mapSize s) :
      Used K directory name mapSize ((System.start s).run turns).map

variable [DecidableEq K] {directory : Path} {name : String} {mapSize : UInt64} {s : MapState K}

theorem Used.paginated [LawfulKey K] (h : Used K directory name mapSize s) : ∃ d, Paginated d [] s := by
  induction h with
  | opened hd hinit => exact paginated_of_vacant hd hinit
  | @acted s s' act r _ hrun ih =>
      obtain ⟨d, hs⟩ := ih
      have ht := hs.action act
      rw [hrun] at ht
      exact ⟨d, ht⟩
  | shuffled _ hs hr ih =>
      obtain ⟨d, h⟩ := ih
      refine ⟨d, h.collecting rfl ⟨rfl, rfl, rfl, rfl⟩ rfl rfl fun _ he => ?_⟩
      cases he
      exact (h.collected _ hs).rearranged hr
  | worked turns _ ih =>
      obtain ⟨d, hs⟩ := ih
      exact ⟨d, hs.worked turns⟩

theorem used_of_scenario {acts : List (PagedMap.Action K)}
    (hs : PagedMap.scenario K name mapSize acts = some s) : Used K [] name mapSize s :=
  PagedMap.of_scenario (motive := fun _ s => Used K [] name mapSize s) hs .opened
    fun hu _ hrun => .acted hu hrun

end MeteredStorage
