import MeteredStorage.Proofs.Archive.Owning
import MeteredStorage.Proofs.Archive.Tending

namespace MeteredStorage

open MeteredStorage.Task (Ensures Upholds)

namespace Archive

open Hosted

structure Shown (v : Volume) (s : Hosted Archive) : Prop where
  member : v.segment ∈ s.self.segments
  sole : ∀ y ∈ s.self.segments, y.index = v.segment.index → y = v.segment
  content : s.host.disk.content v.segment.slot = v.bytes
  handle_lt : v.segment.handle < s.host.disk.opened
  index_lt : v.segment.index.toNat < Location.maxSegments
  size_le : v.dataSize ≤ Location.maxOffset
  fits : ∀ r ∈ v.records, r.Fits
  footer : ∀ f, v.segment.footer = some f → Volume.Describes f v

structure Bears (directory : Path) (name : String) (n : Nat) (v : Volume) (w : Option Writer)
    (s : Hosted Archive) : Prop where
  attached : Attached directory name n s
  shown : Shown v s
  writer : s.self.writer = w

structure Beside (directory : Path) (name : String) (v : Volume) (x : Segment) : Prop where
  placed : x.Placed directory name
  index : x.index ≠ v.segment.index

structure Clear (directory : Path) (name : String) (v : Volume) (x : Segment) : Prop extends
    Beside directory name v x where
  slot : x.slot ≠ v.segment.slot
  handle : x.handle ≠ v.segment.handle

def Spares (directory : Path) (name : String) (n : Nat) (v : Volume) (w : Option Writer) {α : Type}
    (Q : α → Prop) (task : ArchiveTask α) : Prop :=
  Upholds (Bears directory name n v w) Q task

variable {directory : Path} {name : String} {n : Nat} {v out : Volume} {w : Option Writer} {α β : Type}
  {Q : α → Prop} {s t : Hosted Archive} {task : ArchiveTask α} {x : Segment}

theorem Attached.file (h : Attached directory name n s) (hx : x ∈ s.self.segments) :
    s.host.disk.HasFile x.path x.slot ∧ x.slot < s.host.disk.contents.length := by
  have hlodged := h.lodges.lodged _
    (List.mem_append_right _ (List.mem_map_of_mem (f := Segment.listing name) hx))
  have hpath := h.placed x hx
  have hfile := hlodged.file
  rw [hlodged.named] at hfile
  exact ⟨hpath ▸ hfile, hlodged.slot_lt⟩

theorem Bears.stored (h : Bears directory name n v w s) : v.Stored s.host.disk :=
  ⟨(h.attached.file h.shown.member).1, (h.attached.file h.shown.member).2, h.shown.content,
    h.shown.index_lt, h.shown.size_le, h.shown.fits, h.shown.footer⟩

structure Enters (directory : Path) (name : String) (n : Nat) (s : Hosted Archive) (x : Segment)
    (t : Hosted Archive) : Prop where
  attached : Attached directory name n t
  placed : x.Placed directory name
  self : t.self = s.self.entered x
  footer : x.footer = none
  slot : x.slot = s.host.disk.contents.length
  handle : x.handle = s.host.disk.opened
  index_lt : x.index.toNat < Location.maxSegments
  index_ne : ∀ y ∈ s.self.segments, y.index ≠ x.index
  frame : Disk.Frame (fun _ => True) s.host.disk t.host.disk
  content : t.host.disk.content x.slot = []
  opened : t.host.disk.opened = s.host.disk.opened + 1

theorem Attached.createSegment_enters (h : Attached directory name n s) :
    (∃ e t, createSegment s = (.error e, t) ∧ Attached directory name n t ∧
      t.self = { s.self with nextIndex := s.self.nextIndex + 1 } ∧ t.host.disk = s.host.disk) ∨
    ∃ x t, createSegment s = (.ok x, t) ∧ Enters directory name n s x t := by
  have ht := tends_createSegment.run h (Prod.eta (createSegment s)).symm
  rcases Archive.createSegment_cases s with ⟨e, t, hrun, hself, hdisk, -⟩ |
    ⟨trail, file, t, hmax, htarget, hm, hrun, hself, hdisk⟩
  · rw [hrun] at ht
    obtain ⟨-, ⟨⟩, -⟩ | ⟨-, -, ht⟩ := ht
    exact .inl ⟨e, t, hrun, ht, hself, hdisk⟩
  · rw [hrun] at ht
    obtain ⟨-, ⟨⟩, ht, hplaced⟩ | ⟨-, ⟨⟩, -⟩ := ht
    rw [h.pathOf] at htarget
    refine .inr ⟨_, t, hrun, ht, hplaced, hself, rfl, rfl, rfl, hmax, fun y hy => ?_, ?_, ?_, ?_⟩
    · exact h.lodges.index_ne htarget hm (y.listing name)
        (List.mem_append_right _ (List.mem_map_of_mem hy))
    · rw [hdisk]
      exact Disk.frame_created (h.lodges.sound.target_lt htarget) (Disk.meaning_eq_ok hm).2
    · rw [hdisk]
      exact Disk.content_created ..
    · rw [hdisk]
      rfl

theorem Shown.congr (h : Shown v s) (hseg : t.self.segments = s.self.segments)
    (hc : t.host.disk.content v.segment.slot = s.host.disk.content v.segment.slot)
    (ho : s.host.disk.opened ≤ t.host.disk.opened) : Shown v t :=
  ⟨hseg ▸ h.member, hseg ▸ h.sole, hc.trans h.content, Nat.lt_of_lt_of_le h.handle_lt ho, h.index_lt,
    h.size_le, h.fits, h.footer⟩

/-- A task that keeps the archive attached has to leave the file and the entry of the volume alone. -/
theorem spares_of (ht : Tends directory name n Q task)
    (h : ∀ s, Bears directory name n v w s → Shown v (task s).2 ∧ (task s).2.self.writer = w) :
    Spares directory name n v w Q task := by
  intro s hs
  have hrest := h s hs
  rcases hgo : task s with ⟨r, t⟩
  rw [hgo] at hrest
  rcases ht.run hs.attached hgo with ⟨a, rfl, ht, hq⟩ | ⟨e, rfl, ht⟩
  · exact ⟨⟨ht, hrest.1, hrest.2⟩, hq⟩
  · exact ⟨ht, hrest.1, hrest.2⟩

theorem spares_count (f : ArchiveCounts → ArchiveCounts) :
    Spares directory name n v w (fun _ => True) (count f) :=
  spares_of (tends_count f) fun _ hs => ⟨hs.shown.congr rfl rfl (Nat.le_refl _), hs.writer⟩

theorem spares_report (event : Event) :
    Spares directory name n v w (fun _ => True) (report event : ArchiveTask Unit) :=
  spares_of (tends_report event) fun _ hs => ⟨hs.shown.congr rfl rfl (Nat.le_refl _), hs.writer⟩

theorem Attached.syncDirectory_run (h : Attached directory name n s) :
    syncDirectory s = (.ok (), s) := syncDirectory_of_home (h.directory ▸ h.lodges.home)

theorem spares_syncDirectory : Spares directory name n v w (fun _ => True) syncDirectory := by
  refine spares_of tends_syncDirectory fun s hs => ?_
  rw [hs.attached.syncDirectory_run]
  exact ⟨hs.shown, hs.writer⟩

theorem spares_append (hx : x.slot ≠ v.segment.slot) (offset : Nat) (r : Record) :
    Spares directory name n v w (fun _ => True) (onDisk (x.append offset r)) := by
  refine spares_of (tends_append x offset r) fun s hs => ?_
  have hframe := Disk.changed_write s.host.disk x.slot offset r.encode
  exact ⟨hs.shown.congr rfl (hframe.content _ hx.symm hs.stored.slot_lt) (Nat.le_refl _), hs.writer⟩

theorem spares_createSegment :
    Spares directory name n v w (Clear directory name v) createSegment := by
  intro s hs
  rcases hs.attached.createSegment_enters with ⟨e, t, hrun, ht, hself, hdisk⟩ | ⟨x, t, hrun, he⟩
  · rw [hrun]
    refine ⟨ht, hs.shown.congr (by rw [hself]) (by rw [hdisk]) (Nat.le_of_eq (by rw [hdisk])), ?_⟩
    rw [hself]
    exact hs.writer
  · rw [hrun]
    have hindex := he.index_ne _ hs.shown.member
    refine ⟨⟨he.attached, ⟨?_, fun y hy hi => ?_, ?_, ?_, hs.shown.index_lt, hs.shown.size_le,
      hs.shown.fits, hs.shown.footer⟩, ?_⟩, ⟨he.placed, hindex.symm⟩, ?_, ?_⟩
    · rw [he.self]
      refine (enter_perm he.index_ne).mem_iff.mpr (List.mem_cons_of_mem _ hs.shown.member)
    · rw [he.self] at hy
      rcases mem_enter hy with rfl | hy
      · exact absurd hi.symm hindex
      · exact hs.shown.sole y hy hi
    · exact (he.frame.content _ trivial hs.stored.slot_lt).trans hs.shown.content
    · exact Nat.lt_of_lt_of_le hs.shown.handle_lt he.frame.opened
    · rw [he.self]
      exact hs.writer
    · rw [he.slot]
      exact (Nat.ne_of_lt hs.stored.slot_lt).symm
    · rw [he.handle]
      exact (Nat.ne_of_lt hs.shown.handle_lt).symm

theorem spares_removeSegment (hx : Beside directory name v x) :
    Spares directory name n v w (fun _ => True) (removeSegment x) := by
  refine spares_of (tends_removeSegment hx.placed) fun s hs => ?_
  have hunlink (a : Archive) (hm : v.segment ∈ a.segments)
      (hsole : ∀ y ∈ a.segments, y.index = v.segment.index → y = v.segment) (hw : a.writer = w) :
      Shown v (onDisk (Disk.unlinkIfPresent x.path) { s with self := a }).2 ∧
        (onDisk (Disk.unlinkIfPresent x.path) { s with self := a }).2.self.writer = w := by
    obtain ⟨hc, ho⟩ := Disk.unlinkIfPresent_contents x.path s.host.disk
    rw [onDisk_run]
    rcases hrun : Disk.unlinkIfPresent x.path s.host.disk with ⟨_ | _, d⟩
    all_goals
      rw [hrun] at hc ho
      refine ⟨⟨hm, hsole, ?_, ?_, hs.shown.index_lt, hs.shown.size_le, hs.shown.fits, hs.shown.footer⟩, hw⟩
      · exact (congrArg (fun cs => (cs[v.segment.slot]?).getD []) hc).trans hs.shown.content
      · exact Nat.lt_of_lt_of_le hs.shown.handle_lt (Nat.le_of_eq ho.symm)
  simp only [removeSegment, Task.bind_run, Task.get_run]
  split
  · refine hunlink (s.self.struck x.index) (List.mem_filter.mpr ⟨hs.shown.member, ?_⟩)
      (fun y hy => hs.shown.sole y (List.mem_filter.mp hy).1) hs.writer
    simpa using hx.index.symm
  · exact hunlink s.self hs.shown.member hs.shown.sole hs.writer

theorem spares_finishSegment (hx : Clear directory name v x) (f : Footer) :
    Spares directory name n v w (fun _ => True) (finishSegment x f) := by
  refine spares_of (tends_finishSegment x f) fun s hs => ?_
  have hframe := Disk.changed_finish s.host.disk x.slot (alignToPage f.dataSize.toNat) f.encode
  rw [finishSegment_run]
  refine ⟨⟨List.mem_map.mpr ⟨v.segment, hs.shown.member, if_neg hx.handle.symm⟩, fun y hy he => ?_,
    (hframe.content _ hx.slot.symm hs.stored.slot_lt).trans hs.shown.content,
    Nat.lt_of_lt_of_le hs.shown.handle_lt hframe.opened, hs.shown.index_lt, hs.shown.size_le,
    hs.shown.fits, hs.shown.footer⟩, hs.writer⟩
  obtain ⟨z, hz, rfl⟩ := List.mem_map.mp hy
  have hindex : z.index = v.segment.index := by
    rw [← he]
    split <;> rfl
  rw [hs.shown.sole z hz hindex, if_neg hx.handle.symm]

theorem spares_readInto (location : Int64) (part : Part) (buffer : Bytes) :
    Spares directory name n v w (fun _ => True) (readInto location part buffer) :=
  Upholds.get fun _ _ => (Upholds.ofExcept _ _).then fun _ _ => (spares_count _).then fun _ _ =>
    Upholds.pure trivial

theorem spares_fillOutput (hout : Clear directory name v x) (newest : Footer) (mergedFrom : UInt64)
    (inputs : List Segment) :
    Spares directory name n v w (fun _ => True) (fillOutput x newest mergedFrom inputs) := by
  have hcopying : Copying (Bears directory name n v w) (fun _ => True) x :=
    ⟨fun offset r => (spares_append hout.slot offset r).abides, trivial, fun _ _ => trivial⟩
  exact (hcopying.fillOutput (fun f => (spares_finishSegment hout f).abides) _ _ _).upholds

theorem spares_mergeRun {run : List Segment} (newest : Footer)
    (hrun : ∀ x ∈ run, Beside directory name v x) :
    Spares directory name n v w (fun m => ∀ x ∈ m.inputs, Beside directory name v x)
      (mergeRun run newest) := by
  refine spares_createSegment.then fun output hout => (spares_report _).then fun _ _ =>
    (spares_fillOutput hout _ _ _).attempt.then fun r _ => ?_
  have hinputs : ∀ x ∈ run.reverse, Beside directory name v x := fun x hx =>
    hrun x (List.mem_reverse.mp hx)
  split
  · exact Upholds.throw _
  · exact (spares_removeSegment hout.toBeside).then fun _ _ => Upholds.throw _
  · split
    · exact (spares_removeSegment hout.toBeside).then fun _ _ => Upholds.pure hinputs
    · exact spares_syncDirectory.then fun _ _ => Upholds.pure hinputs

/-- A volume that is being written is no input of a merge. -/
theorem spares_prepareMerge (hopen : v.segment.footer = none) (files : List Segment) :
    Spares directory name n v w (fun r => ∀ m, r = some m → ∀ x ∈ m.inputs, Beside directory name v x)
      (prepareMerge files) := by
  refine Upholds.get fun s hs => ?_
  dsimp only
  split
  · exact Upholds.pure nofun
  · split
    · exact Upholds.throw _
    · rename_i run hrun
      split
      · exact Upholds.pure nofun
      · refine (spares_mergeRun _ fun x hx => ?_).then fun m hm => Upholds.pure ?_
        · obtain ⟨first, rfl⟩ := contiguousRun?_eq hrun
          obtain ⟨hx, hc⟩ := mem_completed.mp (List.mem_of_mem_drop (List.mem_of_mem_take hx))
          exact ⟨hs.attached.placed x hx, fun he => not_complete hopen hc (hs.shown.sole x hx he)⟩
        · rintro _ ⟨⟩
          exact hm

theorem spares_removeSegments {inputs : List Segment}
    (hin : ∀ x ∈ inputs, Beside directory name v x) :
    Spares directory name n v w (fun _ => True) (removeSegments inputs) := by
  induction inputs with
  | nil => exact Upholds.pure trivial
  | cons x rest ih =>
      exact (spares_removeSegment (hin x (List.mem_cons_self ..))).then fun _ _ =>
        ih fun y hy => hin y (List.mem_cons_of_mem _ hy)

theorem spares_finishMerge {m : Merge} (hin : ∀ x ∈ m.inputs, Beside directory name v x) :
    Spares directory name n v w (fun _ => True) (finishMerge m) :=
  (spares_removeSegments hin).then fun _ _ => spares_syncDirectory.then fun _ _ =>
    (spares_count _).then fun _ _ => spares_report _

theorem Enters.bears (h : Enters directory name n s x t) :
    Bears directory name n ⟨x, []⟩ s.self.writer t := by
  have htable : t.self.segments.Perm (x :: s.self.segments) := by
    rw [h.self]
    exact enter_perm h.index_ne
  refine ⟨h.attached, ⟨htable.mem_iff.mpr (List.mem_cons_self ..), fun y hy hi => ?_, ?_, ?_, h.index_lt,
    Nat.zero_le _, nofun, fun f hf => ?_⟩, by rw [h.self]; rfl⟩
  · rcases List.mem_cons.mp (htable.mem_iff.mp hy) with rfl | hy
    · rfl
    · exact absurd hi (h.index_ne y hy)
  · rw [h.content, Volume.bytes, h.footer]
    rfl
  · rw [h.handle, h.opened]
    exact Nat.lt_succ_self _
  · rw [h.footer] at hf
    cases hf

theorem Enters.readable (h : Enters directory name n s x t) (hs : Attached directory name n s)
    {y : Segment} (hy : y ∈ s.self.segments) :
    Readable t.host.disk x y ∧ y.records t.host.disk = y.records s.host.disk := by
  obtain ⟨hfile, hlt⟩ := hs.file hy
  refine ⟨⟨⟨hfile.frame h.frame trivial, Nat.lt_of_lt_of_le hlt h.frame.length⟩, ?_⟩,
    records_frame h.frame ⟨hfile, hlt⟩ trivial⟩
  rw [h.slot]
  exact Nat.ne_of_lt hlt

theorem Bears.push (h : Bears directory name n v w s) (hopen : v.segment.footer = none) {r : Record}
    (hfits : r.Fits) (hsize : v.dataSize + r.size ≤ Location.maxOffset) :
    Bears directory name n (v.push r) w
      (s.withDisk (s.host.disk.changed (.write v.segment.slot v.dataSize r.encode))) := by
  have hstored := h.stored.push hopen hfits hsize
  have ht := Upholds.state (tends_append v.segment v.dataSize r) h.attached
  exact ⟨ht, ⟨h.shown.member, h.shown.sole, hstored.content, h.shown.handle_lt, h.shown.index_lt,
    hstored.size_le, hstored.fits, hstored.footer⟩, h.writer⟩

theorem Bears.finish (h : Bears directory name n v w s) (hopen : v.segment.footer = none) {f : Footer}
    (hf : Volume.Describes f v) :
    Bears directory name n (v.finished f) w (finishSegment v.segment f s).2 := by
  have hstored := h.stored.finish hopen hf
  have ht := Upholds.state (tends_finishSegment v.segment f) h.attached
  rw [finishSegment_run] at ht ⊢
  refine ⟨ht, ⟨List.mem_map.mpr ⟨v.segment, h.shown.member, if_pos rfl⟩, fun y hy he => ?_,
    hstored.content, h.shown.handle_lt, h.shown.index_lt, hstored.size_le, hstored.fits,
    hstored.footer⟩, h.writer⟩
  obtain ⟨z, hz, rfl⟩ := List.mem_map.mp hy
  have hindex : z.index = v.segment.index := by
    refine Eq.trans ?_ he
    split <;> rfl
  rw [h.shown.sole z hz hindex, if_pos rfl]
  rfl

theorem Bears.same {w' : Option Writer} (h : Bears directory name n v w s)
    (hdir : t.self.directory = s.self.directory) (hname : t.self.name = s.self.name)
    (hseg : t.self.segments = s.self.segments) (hdisk : t.host.disk = s.host.disk)
    (hw : t.self.writer = w') :
    Bears directory name n v w' t :=
  ⟨h.attached.mono hdir hname hdisk fun y hy => ⟨y, hseg ▸ hy, rfl, rfl, rfl⟩,
    h.shown.congr hseg (by rw [hdisk]) (Nat.le_of_eq (by rw [hdisk])), hw⟩

structure RoundTrips (s : Hosted Archive) (x : Segment) (f : Footer) (es : List Entry) : Prop where
  registered : x ∈ s.self.segments
  complete : x.footer = some f
  found : s.host.disk.find x.path = .ok (some (.file x.slot))
  aligned : pageSize ∣ (s.host.disk.content x.slot).length
  opened : Segment.completeFooter? x.index (s.host.disk.content x.slot) = .ok (some f)
  scanned : ∃ ps, x.records s.host.disk = (ps, .ok ()) ∧
    ps.map (fun p => (p.record, x.locationOf p.offset)) = es.map fun e => (e.record, .ok e.location)

theorem Bears.roundTrips (h : Bears directory name n v w s) {f : Footer}
    (hf : v.segment.footer = some f) : RoundTrips s v.segment f v.entries where
  registered := h.shown.member
  complete := hf
  found := h.stored.file.find
  aligned := by
    obtain ⟨hlength, haligned⟩ := h.stored.length_content (by rw [Segment.isComplete, hf]; rfl)
    exact hlength ▸ haligned
  opened := h.stored.completeFooter?_eq hf
  scanned := by
    refine ⟨_, h.stored.records_run (by rw [Segment.isComplete, hf]; rfl), ?_⟩
    rw [Volume.entries, List.map_map]
    refine List.map_congr_left fun p hp => ?_
    rw [h.stored.locationOf hp]
    rfl

/--
A session since its start in `s₀`: what it has stored, at the locations that were told, and the merge in
progress. Records may be refused, and reads and merges go on beside it.
-/
inductive Session (s₀ : Hosted Archive) : List Entry → Option Merge → Hosted Archive → Prop
  | started {s : Hosted Archive} (h : startWriting s₀ = (.ok (), s)) : Session s₀ [] none s
  | stored {log : List Entry} {m : Option Merge} {s t : Hosted Archive} {r : Record} {location : Int64}
      (hs : Session s₀ log m s) (h : store r s = (.ok location, t)) :
      Session s₀ (log ++ [⟨r, location⟩]) m t
  | refused {log : List Entry} {m : Option Merge} {s t : Hosted Archive} {r : Record} {e : ArchiveError}
      (hs : Session s₀ log m s) (h : store r s = (.error e, t)) : Session s₀ log m t
  | read {log : List Entry} {m : Option Merge} {s t : Hosted Archive} {location : Int64} {part : Part}
      {buffer : Bytes} {r : Except ArchiveError (Nat × Bytes)} (hs : Session s₀ log m s)
      (h : readInto location part buffer s = (r, t)) : Session s₀ log m t
  | waited {log : List Entry} {m : Option Merge} {s : Hosted Archive} (clock : UInt64)
      (hs : Session s₀ log m s) : Session s₀ log m { s with host := { s.host with clock := clock } }
  | prepared {log : List Entry} {s t : Hosted Archive} {files : List Segment}
      {r : Except ArchiveError (Option Merge)} (hs : Session s₀ log none s)
      (h : prepareMerge files s = (r, t)) : Session s₀ log (r.toOption.getD none) t
  | finished {log : List Entry} {m : Merge} {s t : Hosted Archive} {r : Except ArchiveError Unit}
      (hs : Session s₀ log (some m) s) (h : finishMerge m s = (r, t)) : Session s₀ log none t

theorem Attached.started (h : Attached directory name n s) (hgo : startWriting s = (.ok (), t)) :
    ∃ x, x.footer = none ∧ Bears directory name n ⟨x, []⟩ (some (Volume.writer ⟨x, []⟩)) t := by
  cases hw : s.self.writer with
  | some w =>
      have hrun : startWriting s = (.error .sessionActive, s) := by simp [startWriting, hw]
      rw [hrun] at hgo
      cases hgo
  | none =>
      rcases h.createSegment_enters with ⟨e, t1, hcreate, -⟩ | ⟨x, t1, hcreate, he⟩
      · have hrun : startWriting s = (.error e, t1) := by simp [startWriting, hw, hcreate]
        rw [hrun] at hgo
        cases hgo
      · have hrun : startWriting s = (.ok (), { t1 with
            self := { t1.self with writer := some ⟨x, 0, 0⟩ }
            host := { t1.host with events := .sessionStarted x.index :: t1.host.events } }) := by
          simp [startWriting, hw, hcreate]
        rw [hrun] at hgo
        cases hgo
        exact ⟨x, he.footer, he.bears.same rfl rfl rfl rfl rfl⟩

/-- In a session the archive has a volume of what was stored, and no merge touches it. -/
theorem Session.bears {s₀ : Hosted Archive} {log : List Entry} {m : Option Merge}
    (h : Attached directory name n s₀) (hs : Session s₀ log m s) :
    ∃ v, v.segment.footer = none ∧ v.entries = log ∧ Bears directory name n v (some v.writer) s ∧
      ∀ m', m = some m' → ∀ x ∈ m'.inputs, Beside directory name v x := by
  induction hs with
  | started hgo =>
      obtain ⟨x, hopen, hb⟩ := h.started hgo
      exact ⟨⟨x, []⟩, hopen, rfl, hb, nofun⟩
  | @stored log m s t r location _ hgo ih =>
      obtain ⟨v, hopen, hlog, hb, hm⟩ := ih
      rcases store_cases_of_writer hb.writer hb.shown.index_lt r with
        ⟨e, hrun, -⟩ | ⟨hfits, hroom, hrun⟩
      · rw [hrun] at hgo
        cases hgo
      · rw [hrun] at hgo
        cases hgo
        refine ⟨v.push r, hopen, by rw [Volume.entries_push, hlog], ?_, fun m' he x hx =>
          ⟨(hm m' he x hx).placed, (hm m' he x hx).index⟩⟩
        exact (hb.push hopen hfits hroom).same rfl rfl rfl rfl rfl
  | @refused log m s t r e _ hgo ih =>
      obtain ⟨v, hopen, hlog, hb, hm⟩ := ih
      rcases store_cases_of_writer hb.writer hb.shown.index_lt r with ⟨e, hrun, -⟩ | ⟨-, -, hrun⟩
      · rw [hrun] at hgo
        cases hgo
        exact ⟨v, hopen, hlog, hb, hm⟩
      · rw [hrun] at hgo
        cases hgo
  | @read log m s t location part buffer r _ hgo ih =>
      obtain ⟨v, hopen, hlog, hb, hm⟩ := ih
      have ht := Upholds.state (spares_readInto location part buffer) hb
      rw [hgo] at ht
      exact ⟨v, hopen, hlog, ht, hm⟩
  | waited clock _ ih =>
      obtain ⟨v, hopen, hlog, hb, hm⟩ := ih
      exact ⟨v, hopen, hlog, hb.same rfl rfl rfl rfl hb.writer, hm⟩
  | @prepared log s t files r _ hgo ih =>
      obtain ⟨v, hopen, hlog, hb, -⟩ := ih
      rcases (spares_prepareMerge hopen files).run hb hgo with ⟨o, rfl, ht, hm⟩ | ⟨e, rfl, ht⟩
      · exact ⟨v, hopen, hlog, ht, hm⟩
      · exact ⟨v, hopen, hlog, ht, nofun⟩
  | @finished log m s t r _ hgo ih =>
      obtain ⟨v, hopen, hlog, hb, hm⟩ := ih
      have ht := Upholds.state (spares_finishMerge (hm m rfl)) hb
      rw [hgo] at ht
      exact ⟨v, hopen, hlog, ht, nofun⟩

theorem Bears.endWriting_run (h : Bears directory name n v (some v.writer) s)
    (hopen : v.segment.footer = none) (minKey maxKey : Int64) :
    ∃ f t, endWriting minKey maxKey s = (.ok (), t) ∧ f.minKey = minKey ∧ f.maxKey = maxKey ∧
      Bears directory name n (v.finished f) none t := by
  let f := sessionFooter v.writer s.host.clock minKey maxKey
  let s1 : Hosted Archive := { s with self := { s.self with writer := none } }
  have h1 : Bears directory name n v none s1 := h.same rfl rfl rfl rfl rfl
  have hb := h1.finish hopen (describes_sessionFooter h.stored s.host.clock minKey maxKey)
  have hsync := hb.attached.syncDirectory_run
  rcases hfinish : finishSegment v.segment f s1 with ⟨r, s2⟩
  have hok : r = .ok () := by
    rw [finishSegment_run] at hfinish
    cases hfinish
    rfl
  subst hok
  rw [show finishSegment v.segment (sessionFooter v.writer s.host.clock minKey maxKey) s1 = _ from
    hfinish] at hb hsync
  refine ⟨f, { s2 with host := { s2.host with
    events := .sessionCompleted v.segment.index v.records.length f.size :: s2.host.events } }, ?_, rfl,
    rfl, ?_⟩
  · have hgo : finishSegment v.writer.segment (sessionFooter v.writer s.host.clock minKey maxKey)
        { s with self := { s.self with writer := none } } = (.ok (), s2) := hfinish
    simp only [endWriting, Task.bind_run, Task.get_run, h.writer, Hosted.update_run, hgo, hsync,
      Hosted.report_run]
    rfl
  · exact hb.same rfl rfl rfl rfl hb.writer

theorem Bears.fillOutput_run (h : Bears directory name n ⟨x, []⟩ w s) (hopen : x.footer = none)
    {newest : Footer} {mergedFrom : UInt64} {inputs : List Segment}
    (hin : ∀ y ∈ inputs, Readable s.host.disk x y) {moves : List Relocation} {size : Nat}
    (hgo : fillOutput x newest mergedFrom inputs s = (.ok (moves, size), t)) (hmoves : moves ≠ []) :
    ∃ v f, ∃ copies : List (Entry × Int64), v.segment = { x with footer := some f } ∧
      moves = copies.map Relocation.ofCopy ∧ v.entries = copies.map (fun c => ⟨c.1.record, c.2⟩) ∧
      (∀ c ∈ copies, Sourced s.host.disk inputs c.1) ∧ Bears directory name n v w t := by
  let I (out : Volume) (d : Disk) : Prop :=
    Bears directory name n out w (s.withDisk d) ∧ out.segment.footer = none
  have hI : Fillable I := {
    index_lt := fun h => h.1.shown.index_lt
    push := fun h hfits hroom => ⟨h.1.push h.2 hfits hroom, h.2⟩ }
  obtain ⟨⟨moves', size'⟩, s1, hcopy, hgo⟩ := Task.of_bind_ok hgo
  have hstart : I ⟨x, []⟩ s.host.disk := ⟨h, hopen⟩
  obtain ⟨es, hself, -, ⟨hb, hopen'⟩, hok⟩ := hI.copyLatest_run hstart hin hcopy
  obtain ⟨rfl, rfl, hes⟩ := hok _ _ rfl
  cases es with
  | nil =>
      cases hgo
      exact absurd rfl hmoves
  | cons e es =>
      let v := Volume.pushAll ⟨x, []⟩ (e :: es)
      have hb1 : Bears directory name n v w s1 :=
        hb.same (by rw [hself]; rfl) (by rw [hself]; rfl) (by rw [hself]; rfl) rfl
          (by rw [hself]; exact h.writer)
      have hlength : ((Volume.copies ⟨x, []⟩ (e :: es)).map Relocation.ofCopy).length =
          v.records.length := by
        simp [v, Volume.pushAll, Volume.length_copies]
      have hdescribes := describes_mergeFooter hb1.stored newest mergedFrom s1.host.clock
      rw [← hlength] at hdescribes
      have hdone := hb1.finish hopen' hdescribes
      have hstate : (Except.ok ((Volume.copies ⟨x, []⟩ (e :: es)).map Relocation.ofCopy, v.dataSize),
          (finishSegment v.segment (mergeFooter newest mergedFrom v.segment s1.host.clock
            ((Volume.copies ⟨x, []⟩ (e :: es)).map Relocation.ofCopy).length v.dataSize) s1).2) =
          ((Except.ok (moves, size), t) : Except ArchiveError _ × _) := hgo
      cases hstate
      refine ⟨v.finished _, _, _, rfl, rfl, ?_,
        fun c hc => hes c.1 (Volume.mem_of_mem_copies hc), hdone⟩
      rw [Volume.entries_finished]
      exact Volume.entries_pushAll_of_empty rfl (e :: es)

/-- A merge that moves records has an output with the records that it read of its inputs. -/
theorem Attached.mergeRun_bears (h : Attached directory name n s) {run : List Segment}
    {newest : Footer} (hin : ∀ y ∈ run, y ∈ s.self.segments) {m : Merge}
    (hgo : mergeRun run newest s = (.ok m, t)) (hmoves : m.moves ≠ []) :
    ∃ v f, ∃ copies : List (Entry × Int64), v.segment = { m.output with footer := some f } ∧
      m.moves = copies.map Relocation.ofCopy ∧ v.entries = copies.map (fun c => ⟨c.1.record, c.2⟩) ∧
      (∀ c ∈ copies, Sourced s.host.disk m.inputs c.1) ∧ Bears directory name n v s.self.writer t ∧
      ∀ y ∈ m.inputs, Beside directory name v y := by
  obtain ⟨s1, s2, hcreate, hfill, hinputs, hsync⟩ := mergeRun_eq_ok hgo hmoves
  rcases h.createSegment_enters with ⟨e, t1, hfail, -⟩ | ⟨x, t1, hcreate', he⟩
  · cases hfail.symm.trans hcreate
  cases hcreate'.symm.trans hcreate
  have hread (y : Segment) (hy : y ∈ run.reverse) :=
    he.readable h (hin y (List.mem_reverse.mp hy))
  have hstarted : Bears directory name n ⟨m.output, []⟩ s.self.writer
      (announced s1 run newest m.output) :=
    he.bears.same rfl rfl rfl rfl he.bears.writer
  obtain ⟨v, f, copies, hv, hcopies, hentries, hsourced, hb⟩ :=
    hstarted.fillOutput_run he.footer (fun y hy => (hread y hy).1) hfill hmoves
  cases hb.attached.syncDirectory_run.symm.trans hsync
  rw [hinputs]
  refine ⟨v, f, copies, hv, hcopies, hentries, fun c hc => ?_, hb, fun y hy => ⟨?_, ?_⟩⟩
  · obtain ⟨y, hy, p, hp, hrecord, hlocation⟩ := hsourced c hc
    exact ⟨y, hy, p, (hread y hy).2 ▸ hp, hrecord, hlocation⟩
  · exact h.placed y (hin y (List.mem_reverse.mp hy))
  · rw [hv]
    exact he.index_ne y (hin y (List.mem_reverse.mp hy))

theorem prepareMerge_eq_some {files : List Segment} {m : Merge}
    (hgo : prepareMerge files s = (.ok (some m), t)) :
    ∃ run newest, (∀ y ∈ run, y ∈ s.self.completed) ∧ mergeRun run newest s = (.ok m, t) := by
  rcases prepareMerge_choice files s with ⟨-, hnone⟩ | ⟨-, ⟨-, hthrow⟩ | ⟨run, hrun,
    ⟨-, hnone⟩ | ⟨newest, -, hsome⟩⟩⟩
  · cases hnone.symm.trans hgo
  · cases hthrow.symm.trans hgo
  · cases hnone.symm.trans hgo
  · refine ⟨run, newest, fun y hy => ?_, ?_⟩
    · obtain ⟨first, rfl⟩ := contiguousRun?_eq hrun
      exact List.mem_of_mem_drop (List.mem_of_mem_take hy)
    · rw [hsome, Task.map_run] at hgo
      split at hgo
      · cases hgo
        assumption
      · cases hgo

theorem Attached.prepareMerge_bears (h : Attached directory name n s) {files : List Segment} {m : Merge}
    (hgo : prepareMerge files s = (.ok (some m), t)) (hmoves : m.moves ≠ []) :
    ∃ v f, ∃ copies : List (Entry × Int64), v.segment = { m.output with footer := some f } ∧
      m.moves = copies.map Relocation.ofCopy ∧ v.entries = copies.map (fun c => ⟨c.1.record, c.2⟩) ∧
      (∀ c ∈ copies, Sourced s.host.disk m.inputs c.1) ∧ Bears directory name n v s.self.writer t ∧
      ∀ y ∈ m.inputs, Beside directory name v y := by
  obtain ⟨run, newest, hin, hmerge⟩ := prepareMerge_eq_some hgo
  exact h.mergeRun_bears (fun y hy => (mem_completed.mp (hin y hy)).1) hmerge hmoves

/--
Whatever was done before: a session that is ended leaves a segment of exactly what it stored, which
opens and is scanned as such, and so does a merge that moves anything, also when its inputs are gone.
-/
theorem Tended.round_trips (h : Tended directory name s.host (some s.self)) :
    (∀ log m t minKey maxKey, Session s log m t →
      ∃ u x f, endWriting minKey maxKey t = (.ok (), u) ∧ f.minKey = minKey ∧ f.maxKey = maxKey ∧
        RoundTrips u x f log) ∧
    ∀ files m t, prepareMerge files s = (.ok (some m), t) → m.moves ≠ [] →
      ∃ f, ∃ copies : List (Entry × Int64), m.moves = copies.map Relocation.ofCopy ∧
        (∀ c ∈ copies, Sourced s.host.disk m.inputs c.1) ∧
        ∀ u, u = t ∨ u = (finishMerge m t).2 →
          RoundTrips u { m.output with footer := some f } f (copies.map fun c => ⟨c.1.record, c.2⟩) := by
  obtain ⟨n, -, h⟩ := h.attached
  replace h := h s.self rfl
  constructor
  · intro log m t minKey maxKey hsession
    obtain ⟨v, hopen, rfl, hb, -⟩ := hsession.bears h
    obtain ⟨f, u, hend, hmin, hmax, hb⟩ := hb.endWriting_run hopen minKey maxKey
    exact ⟨u, _, f, hend, hmin, hmax, hb.roundTrips rfl⟩
  · intro files m t hgo hmoves
    obtain ⟨v, f, copies, hv, hcopies, hentries, hsourced, hb, hbeside⟩ :=
      h.prepareMerge_bears hgo hmoves
    refine ⟨f, copies, hcopies, hsourced, ?_⟩
    rintro u (rfl | rfl)
    · rw [← hv, ← hentries]
      exact hb.roundTrips (by rw [hv])
    · rw [← hv, ← hentries]
      exact (Upholds.state (spares_finishMerge hbeside) hb).roundTrips (by rw [hv])

def startedWith (r : Record) (s : Hosted Archive) : Option (Int64 × Hosted Archive) :=
  match startWriting s with
  | (.ok (), t) =>
      match store r t with
      | (.ok location, u) => some (location, u)
      | (.error _, _) => none
  | (.error _, _) => none

theorem session_of_startedWith {r : Record} {location : Int64} (h : startedWith r s = some (location, t)) :
    Session s [⟨r, location⟩] none t := by
  unfold startedWith at h
  split at h
  · rename_i s1 hstart
    split at h
    · rename_i hstore
      cases h
      exact (Session.started hstart).stored hstore
    · cases h
  · cases h

/-- A record without data is in the file of its session, and one that is merged in the merged file. -/
theorem round_trips_second_session :
    ∃ s, Tended [] "x" s.host (some s.self) ∧
      (∃ t location u x f, Session s [⟨⟨8, []⟩, location⟩] none t ∧
        endWriting 3 9 t = (.ok (), u) ∧ RoundTrips u x f [⟨⟨8, []⟩, location⟩]) ∧
      ∃ m t f e, prepareMerge s.self.completed s = (.ok (some m), t) ∧
        RoundTrips t { m.output with footer := some f } f [e] := by
  have hcheck : (scenario "x" [.start, .store ⟨7, [1]⟩, .finish 0 10]).any fun s =>
      (startedWith ⟨8, []⟩ s).isSome &&
        (prepareMerge s.self.completed s).1.toOption.join.any (·.moves.length == 1) := by
    decide +kernel
  obtain ⟨s, hs, hgo⟩ := (Option.any_eq_true ..).mp hcheck
  rw [Bool.and_eq_true, Option.isSome_iff_exists] at hgo
  obtain ⟨⟨⟨location, t⟩, hsession⟩, hgo⟩ := hgo
  replace hsession := session_of_startedWith hsession
  have ht : Tended [] "x" s.host (some s.self) := (run_of_scenario hs).tended
  obtain ⟨hsessions, hmerges⟩ := Tended.round_trips ht
  obtain ⟨u, x, f, hend, -, -, hround⟩ := hsessions _ none t 3 9 hsession
  obtain ⟨m, hm, hone⟩ := (Option.any_eq_true ..).mp hgo
  rcases hprepare : prepareMerge s.self.completed s with ⟨_ | o, t'⟩
  · rw [hprepare] at hm
    cases hm
  · rw [hprepare] at hm
    obtain rfl : o = some m := Option.some.inj (Option.join_eq_some_iff.mp hm)
    replace hone := beq_iff_eq.mp hone
    have hmoves : m.moves ≠ [] := by
      intro hempty
      rw [hempty] at hone
      cases hone
    obtain ⟨f', copies, hcopies, -, hmerged⟩ := hmerges _ m t' hprepare hmoves
    rw [hcopies, List.length_map] at hone
    obtain ⟨c, rfl⟩ := List.length_eq_one_iff.mp hone
    exact ⟨s, ht, ⟨t, location, u, x, f, hsession, hend, hround⟩, m, t', f', _, hprepare,
      hmerged t' (.inl rfl)⟩

end Archive

end MeteredStorage
