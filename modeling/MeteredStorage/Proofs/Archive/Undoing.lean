import MeteredStorage.Proofs.Archive.Tending

namespace MeteredStorage

open MeteredStorage.Task (Abides Ensures)

namespace Disk

/-- A name that was free is free again once it is removed. -/
theorem directories_unlinked_created {d : Disk} {p : Place} (hn : d.node? p = none) (node : Node) :
    ((d.insertNode p node).eraseNode p).directories = d.directories := by
  have hfree : ∀ e ∈ d.entries p.directory, (e.1 != p.name) = true := by
    intro e he
    rw [node?, List.lookup_eq_none_iff] at hn
    simpa using (bne_iff_ne.mp (hn e he)).symm
  simp only [eraseNode, insertNode]
  apply Array.ext
  · simp
  · intro i hi hi'
    by_cases h : p.directory = i
    · subst h
      have he : d.entries p.directory = d.directories[p.directory] := by simp [entries, hi']
      rw [he] at hfree
      simp [Array.getElem_modify, List.filter_append, List.filter_eq_self.mpr hfree]
    · simp [Array.getElem_modify, h]

end Disk

namespace Segment

theorem filter_insertBy {p : Segment → Bool} {x : Segment} (hx : p x = false)
    (le : Segment → Segment → Bool) (ss : List Segment) :
    (insertBy le x ss).filter p = ss.filter p := by
  induction ss with
  | nil => simp [insertBy, hx]
  | cons y ss ih =>
      rw [insertBy]
      split
      · rw [List.filter_cons_of_neg (by simp [hx])]
      · rw [List.filter_cons, List.filter_cons, ih]

end Segment

namespace Archive

/--
Nothing has changed but the number of the next index: neither what is registered and counted, nor what
is in the directories, nor anything that can be read.
-/
structure Undone (s t : Hosted Archive) : Prop where
  archive : t.self = { s.self with nextIndex := t.self.nextIndex }
  next : t.self.nextIndex = s.self.nextIndex ∨ t.self.nextIndex = s.self.nextIndex + 1
  directories : t.host.disk.directories = s.host.disk.directories
  content : ∀ slot < s.host.disk.contents.length,
    t.host.disk.content slot = s.host.disk.content slot
  fetch : ∀ location part room,
    t.self.fetch t.host.disk location part room = s.self.fetch s.host.disk location part room
  replay : t.self.replay t.host.disk = s.self.replay s.host.disk
  oldest : ∀ limit, t.self.oldest limit = s.self.oldest limit

structure Filling (s : Hosted Archive) (out : Segment) (t : Hosted Archive) : Prop where
  begun : ∃ trail file, s.host.disk.target out.path = .ok (.name trail file false) ∧
    s.host.disk.meaning trail file = .ok none ∧
    t.host.disk.directories = (s.host.disk.created (Trail.place trail file)).directories
  path : out.path = s.self.pathOf out.index
  slot : out.slot = s.host.disk.contents.length
  archive : t.self = s.self.entered out
  content : ∀ slot < s.host.disk.contents.length,
    t.host.disk.content slot = s.host.disk.content slot

variable {directory : Path} {name : String} {n : Nat} {s t : Hosted Archive} {out : Segment}

/-- What an archive finds depends on its table and on the files that it had made by then. -/
theorem Attached.undone (h : Attached directory name n s)
    (harchive : t.self = { s.self with nextIndex := t.self.nextIndex })
    (hnext : t.self.nextIndex = s.self.nextIndex ∨ t.self.nextIndex = s.self.nextIndex + 1)
    (hd : t.host.disk.directories = s.host.disk.directories)
    (hc : ∀ slot < s.host.disk.contents.length,
      t.host.disk.content slot = s.host.disk.content slot) : Undone s t := by
  have hlodged {x : Segment} (hx : x ∈ s.self.segments) :
      Lodged directory name s.host.disk (x.listing name) :=
    h.lodges.lodged _ (List.mem_append_right _ (List.mem_map_of_mem hx))
  have hcompleted : t.self.completed = s.self.completed := by rw [harchive]; rfl
  refine ⟨harchive, hnext, hd, hc, fun location part room => ?_, ?_, fun limit => ?_⟩
  · have hsegment (index : UInt32) : t.self.segment? index = s.self.segment? index := by
      rw [harchive]
      rfl
    simp only [fetch, hsegment]
    split
    · rfl
    · split
      · rfl
      · rename_i x hx
        exact Segment.read_congr (hc _ (hlodged (List.mem_of_find?_eq_some hx)).slot_lt) ..
  · rw [replay, replay, hcompleted]
    refine visitSegments_congr fun x hx => Segment.records_congr hd fun slot hf => hc slot ?_
    have hx := (mem_completed.mp hx).1
    have hfile := (hlodged hx).file.find
    rw [(hlodged hx).named] at hfile
    rw [h.placed x hx] at hf
    cases hfile.symm.trans hf
    exact (hlodged hx).slot_lt
  · rw [oldest, oldest, hcompleted]

theorem Attached.begin (h : Attached directory name n s) :
    Ensures (· = s) (fun out t => Filling s out t) (fun _ t => Undone s t) createSegment := by
  intro t₀ ht₀
  rw [ht₀]
  rcases createSegment_cases s with ⟨e, t, hrun, hself, hdisk, -⟩ |
    ⟨trail, file, t, -, ht, hm, hrun, hself, hdisk⟩
  · rw [hrun]
    refine h.undone (by rw [hself]) (.inr (by rw [hself])) (by rw [hdisk]) fun _ _ => ?_
    rw [hdisk]
  · rw [hrun]
    refine ⟨⟨trail, file, ht, hm, by rw [hdisk]⟩, rfl, rfl, hself, fun slot hslot => ?_⟩
    rw [hdisk]
    exact (Disk.frame_created (h.lodges.sound.target_lt ht) (Disk.meaning_eq_ok hm).2).content slot
      trivial hslot

theorem filling_append (offset : Nat) (r : Record) :
    Abides (Filling s out) (fun _ => True) (Hosted.onDisk (out.append offset r)) := by
  intro t ht
  obtain ⟨trail, file, htarget, hm, hd⟩ := ht.begun
  rw [Hosted.onDisk_run]
  refine ⟨⟨trail, file, htarget, hm, hd⟩, ht.path, ht.slot, ht.archive, fun slot hslot => ?_⟩
  rw [← ht.content slot hslot]
  have hother := Disk.content_setContent t.host.disk out.slot slot
    (Bytes.overlay offset r.encode (t.host.disk.content out.slot))
  rwa [if_neg fun he => Nat.ne_of_lt hslot (he.1.trans ht.slot)] at hother

theorem filling_copying : Copying (Filling s out) (fun _ => True) out :=
  ⟨filling_append, trivial, fun _ _ => trivial⟩

/-- As long as the output is not complete, nothing but the output has changed. -/
theorem filling_fillOutput (newest : Footer) (mergedFrom : UInt64) (inputs : List Segment) :
    Ensures (Filling s out) (fun r t => r.1 = [] → Filling s out t) (fun _ => Filling s out)
      (fillOutput out newest mergedFrom inputs) := by
  refine Ensures.bind ((filling_copying.copyLatest _ _ _ _ _).mono (fun _ ht => ht)
    (fun _ _ ht => ht) fun _ _ ht => ht.1) fun copied => ?_
  obtain ⟨moves, dataSize⟩ := copied
  cases moves with
  | nil => exact Ensures.pure fun _ ht _ => ht
  | cons move moves =>
      intro t ht
      simp [finishSegment_run]

theorem Attached.discard (h : Attached directory name n s) :
    Ensures (Filling s out) (fun _ t => Undone s t) (fun _ _ => False) (removeSegment out) := by
  intro t ht
  obtain ⟨trail, file, htarget, hm, hd⟩ := ht.begun
  obtain ⟨hsize, hnone⟩ := Disk.meaning_eq_ok hm
  have hplace := h.lodges.sound.target_lt htarget
  have hframe := Disk.frame_created hplace hnone
  have htarget' : t.host.disk.target out.path = .ok (.name trail file false) := by
    rw [Disk.target_congr hd]
    exact Disk.target_mono hframe.keeps htarget
  have hm' : t.host.disk.meaning trail file = .ok (some (.file s.host.disk.contents.length)) := by
    have hnode : t.host.disk.node? (Trail.place trail file) =
        (s.host.disk.created (Trail.place trail file)).node? (Trail.place trail file) := by
      rw [Disk.node?, Disk.node?, Disk.entries, Disk.entries, hd]
    rw [Disk.meaning_of_node hsize, hnode, Disk.node?_created hplace hnone, if_pos rfl]
  have hfresh : ∀ x ∈ s.self.segments, x.index ≠ out.index := by
    intro x hx
    rw [ht.path, h.pathOf] at htarget
    exact h.lodges.index_ne htarget hm _ (List.mem_append_right _ (List.mem_map_of_mem hx))
  have hregistered : (t.self.segment? out.index).isSome := by
    rw [segment?, ht.archive, List.find?_isSome]
    exact ⟨out, (Segment.insertBy_perm ..).mem_iff.mpr (List.mem_cons_self ..), beq_self_eq_true _⟩
  have hrun : removeSegment out t = (.ok (), ⟨t.self.struck out.index, { t.host with
      disk := t.host.disk.changed (.unlink (Trail.place trail file)) }⟩) := by
    have hu := Disk.unlinkIfPresent_run htarget' hm'
    simp [removeSegment, hregistered, hu, Hosted.withDisk, struck]
  have hstruck : t.self.struck out.index = { s.self with nextIndex := s.self.nextIndex + 1 } := by
    have hwithout : without (enter s.self.segments out) out.index = s.self.segments := by
      rw [enter, without_of_absent hfresh, without, Segment.filter_insertBy (by simp), ← without,
        without_of_absent hfresh]
    rw [ht.archive]
    simp [struck, entered, hwithout]
  rw [hrun, hstruck]
  refine h.undone rfl (.inr rfl) ?_ fun slot hslot => ht.content slot hslot
  rw [← Disk.directories_unlinked_created hnone (.file s.host.disk.contents.length)]
  exact congrArg (fun ds => ds.modify trail.number (·.filter fun e => e.1 != file)) hd

/-- A merge of a run fails without a trace, unless by a number that is out of range. -/
theorem Attached.mergeRun_undone (h : Attached directory name n s) (run : List Segment)
    (newest : Footer) :
    Ensures (· = s) (fun _ _ => True) (fun e t => e ≠ .outOfRange → Undone s t)
      (mergeRun run newest) := by
  have hdiscard {out : Segment} : Ensures (fun t => Filling s out t ∧ Attached directory name n t)
      (fun _ t => Undone s t) (fun e t => e ≠ .outOfRange → Undone s t) (removeSegment out) :=
    h.discard.mono (fun _ ht => ht.1) (fun _ _ ht => ht) fun _ _ ht => ht.elim
  have hsync : Ensures (Attached directory name n) (fun _ _ => True)
      (fun e t => e ≠ .outOfRange → Undone s t) syncDirectory := by
    intro t ht
    have hgo : syncDirectory t = (.ok (), t) := by
      simp [syncDirectory, Disk.sync_run (ht.directory ▸ ht.lodges.home), Hosted.withDisk]
    rw [hgo]
    trivial
  unfold mergeRun
  refine Ensures.bind (Q := fun out t => Filling s out t ∧ Attached directory name n t ∧
    out.Placed directory name) ?_ fun out => ?_
  · exact (h.begin.and tends_createSegment).mono (fun t ht => ⟨ht, ht ▸ h⟩) (fun _ _ ht => ht)
      fun _ _ ht _ => ht.1
  refine Ensures.bind (Q := fun _ t => Filling s out t ∧ Attached directory name n t) ?_ fun _ => ?_
  · rintro t ⟨hfill, hattached, -⟩
    refine ⟨⟨hfill.begun, hfill.path, hfill.slot, hfill.archive, hfill.content⟩, ?_⟩
    exact hattached.mono rfl rfl rfl fun x hx => ⟨x, hx, rfl, rfl, rfl⟩
  refine ((filling_fillOutput _ _ _).and (tends_fillOutput _ _ _ _)).attempt.bind fun r => ?_
  split
  · exact Ensures.throw fun _ _ hne => absurd rfl hne
  · exact (hdiscard.mono (fun _ ht => ht.2 _ rfl) (fun _ _ ht => ht) fun _ _ ht => ht).bind fun _ =>
      Ensures.throw fun _ ht _ => ht
  · rename_i moves dataSize
    split
    · rename_i hempty
      exact (hdiscard.mono (fun _ ht =>
        ⟨(ht.1 _ rfl).1 (List.isEmpty_iff.mp hempty), (ht.1 _ rfl).2.1⟩)
        (fun _ _ ht => ht) fun _ _ ht => ht).bind fun _ => Ensures.pure fun _ _ => trivial
    · exact (hsync.mono (fun _ ht => (ht.1 _ rfl).2.1) (fun _ _ ht => ht) fun _ _ ht => ht).bind
        fun _ => Ensures.pure fun _ _ => trivial

/-- A merge that is refused or whose output cannot be made leaves no trace. -/
theorem Attached.prepareMerge_undone (h : Attached directory name n s) (files : List Segment) :
    Ensures (· = s) (fun _ _ => True) (fun e t => e ≠ .outOfRange → Undone s t)
      (prepareMerge files) := by
  refine Ensures.get fun t ht => ?_
  subst ht
  dsimp only
  split
  · exact Ensures.pure fun _ _ => trivial
  · split
    · refine Ensures.throw fun t ht _ => ?_
      subst ht
      exact h.undone rfl (.inl rfl) rfl fun _ _ => rfl
    · split
      · exact Ensures.pure fun _ _ => trivial
      · exact (h.mergeRun_undone _ _).bind fun _ => Ensures.pure fun _ _ => trivial

/-- A merge that fails whatever it is to tell the moves to has failed before it tells them. -/
theorem prepareMerge_of_merge {files : List Segment} {e : ArchiveError}
    (h : ∀ publish, merge publish files s = (.error e, t)) :
    prepareMerge files s = (.error e, t) := by
  rcases hrun : prepareMerge files s with ⟨r, t'⟩
  cases r with
  | error e' =>
      have hmerge := h fun _ => pure ()
      rw [merge, Task.bind_error hrun] at hmerge
      cases hmerge
      rfl
  | ok m =>
      cases m with
      | none =>
          have hmerge := h fun _ => pure ()
          rw [merge, Task.bind_ok hrun] at hmerge
          cases hmerge
      | some m =>
          -- The moves are told, and it is up to the callee with which error.
          have hfirst := h fun _ => throw .noSession
          have hsecond := h fun _ => throw .sessionActive
          rw [merge, Task.bind_ok hrun] at hfirst hsecond
          cases hfirst
          cases hsecond

end Archive

end MeteredStorage
