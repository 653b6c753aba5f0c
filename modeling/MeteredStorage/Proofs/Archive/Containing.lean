import MeteredStorage.Proofs.Archive.Removal

namespace MeteredStorage

open MeteredStorage.Task (Respects)

namespace Archive

open Hosted

def spent (a : Archive) : Archive := { a with nextIndex := UInt32.ofNat Location.maxSegments }

/--
The archive has the volumes, wherever its counter of indices stands: it may have run over, and then
indices of removed segments are given out again.
-/
def Contains (a : Archive) (d : Disk) (vs : List Volume) : Prop := Kept a.spent d vs

structure Retains (a a' : Archive) : Prop where
  directory : a'.directory = a.directory
  name : a'.name = a.name
  writer : a'.writer = a.writer

variable {a a' : Archive} {d : Disk} {s s' t : Hosted Archive} {v : Volume} {vs ws us : List Volume}
  {α β : Type} {task : ArchiveTask α} {r : Except ArchiveError α}

theorem Retains.trans {b : Archive} (h : Retains a a') (h' : Retains a' b) : Retains a b :=
  ⟨h'.directory.trans h.directory, h'.name.trans h.name, h'.writer.trans h.writer⟩

theorem toNat_spent (a : Archive) : a.spent.nextIndex.toNat = Location.maxSegments :=
  UInt32.toNat_ofNat_of_lt' (by decide)

theorem Kept.contains (h : Kept a d vs) : Contains a d vs :=
  ⟨⟨h.holds.sound, h.holds.home, h.holds.segments, h.holds.stored, h.holds.apart, h.holds.handle_lt,
    fun v hv => toNat_spent a ▸ (h.holds.stored v hv).index_lt, h.holds.path⟩, h.housed⟩

theorem Contains.perm (h : Contains a d vs) (hp : vs.Perm ws) : Contains a d ws := Kept.perm h hp

theorem Contains.congr (h : Contains a d vs) (hdir : a'.directory = a.directory)
    (hname : a'.name = a.name) (hseg : a'.segments = a.segments) : Contains a' d vs :=
  Kept.congr h hdir hname hseg rfl

theorem Contains.syncDirectory_run (h : Contains s.self s.host.disk vs) :
    syncDirectory s = (.ok (), s) :=
  h.holds.home.elim fun _ hn => syncDirectory_of_home hn

/-- A new segment gets the index of no other one, for it gets a file of its own. -/
theorem Contains.createSegment_cases (h : Contains s.self s.host.disk vs) :
    (∃ e s', createSegment s = (.error e, s') ∧ Retains s.self s'.self ∧
      Contains s'.self s'.host.disk vs) ∨
    ∃ v s', createSegment s = (.ok v.segment, s') ∧ v.records = [] ∧ v.segment.footer = none ∧
      Retains s.self s'.self ∧ Contains s'.self s'.host.disk (v :: vs) := by
  obtain ⟨n, hn⟩ := h.housed
  rcases Archive.createSegment_cases s with ⟨e, s', hrun, hself, hdisk, -⟩ |
    ⟨trail, name, s', hmax, ht, hm, hrun, hself, hdisk⟩
  · refine .inl ⟨e, s', hrun, by rw [hself]; exact ⟨rfl, rfl, rfl⟩, ?_⟩
    rw [hself, hdisk]
    exact h.congr rfl rfl rfl
  · refine .inr ⟨⟨_, []⟩, s', hrun, rfl, rfl, by rw [hself]; exact ⟨rfl, rfl, rfl⟩, ?_⟩
    have hlt (v : Volume) (hv : v ∈ vs) : v.segment.index.toNat < s'.self.spent.nextIndex.toNat := by
      rw [toNat_spent]
      exact (h.holds.stored v hv).index_lt
    rw [hdisk]
    refine ⟨h.holds.enters ht hm hmax ?_ ?_ ?_ (by rwa [toNat_spent]) hlt, n, ?_⟩
    · rw [hself]
      rfl
    · rw [hself]
      rfl
    · rw [hself]
      rfl
    · have hhoused := hn.created h.holds.sound ht hm (v := ⟨⟨s.self.nextIndex,
        s.self.pathOf s.self.nextIndex, s.host.disk.contents.length, s.host.disk.opened, none⟩, []⟩) rfl
      rw [hself]
      exact hhoused

def spending (s : Hosted Archive) : Hosted Archive := { s with self := s.self.spent }

def Blind (task : ArchiveTask α) : Prop := Respects spending (fun _ => True) (fun _ _ => True) task

theorem Blind.run (h : Blind task) (hrun : task (spending s) = (r, t)) :
    ∃ t', task s = (r, t') ∧ t = spending t' := by
  have hgo := (h s trivial).2.2
  rw [hrun] at hgo
  exact ⟨(task s).2, Prod.ext (congrArg Prod.fst hgo).symm rfl, congrArg Prod.snd hgo⟩

theorem blind_onDisk (task : DiskTask α) : Blind (onDisk task) := by
  intro s _
  refine ⟨trivial, fun _ _ => trivial, ?_⟩
  rw [onDisk_run, onDisk_run]
  rcases hgo : task s.host.disk with ⟨_ | b, d⟩
  · rw [spending, hgo]
    rfl
  · rw [spending, hgo]
    rfl

theorem blind_update {f : Archive → Archive} (hf : ∀ a : Archive, f a.spent = (f a).spent) :
    Blind (update f) :=
  Respects.modify (fun _ _ => trivial) fun s _ => congrArg (Hosted.mk · s.host) (hf s.self)

theorem blind_removeSegment (x : Segment) : Blind (removeSegment x) := by
  apply Respects.get
  · intro _ _
    rfl
  intro s _
  dsimp only
  split
  · apply Respects.andThen
    · exact blind_update fun _ => rfl
    intro _
    apply Respects.andThen
    · exact blind_update fun _ => rfl
    intro _
    exact blind_onDisk _
  · exact blind_onDisk _

theorem blind_finishSegment (x : Segment) (f : Footer) : Blind (finishSegment x f) :=
  Respects.andThen (blind_onDisk _) fun _ => blind_update fun _ => rfl

theorem blind_copyRecords (output input : Segment) (offset : Nat) (rs : List PlacedRecord) :
    Blind (copyRecords output input offset rs) := by
  induction rs generalizing offset with
  | nil => exact Respects.pure fun _ _ => trivial
  | cons r rs ih =>
      unfold copyRecords
      split
      · exact Respects.throwThen _ _
      · exact Respects.andThen (blind_onDisk _) fun _ => (Respects.ofExcept _ _).andThen fun _ =>
          (Respects.ofExcept _ _).andThen fun _ => (ih _).andThen fun _ =>
            Respects.pure fun _ _ => trivial

theorem blind_copyLatest (output : Segment) (minKey maxKey : Int64) (seen : List Int64) (offset : Nat)
    (inputs : List Segment) : Blind (copyLatest output minKey maxKey seen offset inputs) := by
  induction inputs generalizing seen offset with
  | nil => exact Respects.pure fun _ _ => trivial
  | cons input rest ih =>
      apply Respects.get
      · intro _ _
        rfl
      intro s _
      dsimp only
      exact (Respects.ofExcept _ _).andThen fun _ => (blind_copyRecords _ _ _ _).andThen fun _ =>
        (ih _ _).andThen fun _ => Respects.pure fun _ _ => trivial

theorem blind_fillOutput (output : Segment) (newest : Footer) (mergedFrom : UInt64)
    (inputs : List Segment) : Blind (fillOutput output newest mergedFrom inputs) := by
  refine Respects.andThen (blind_copyLatest _ _ _ _ _ _) fun copied => ?_
  dsimp only
  split
  · apply Respects.get
    · intro _ _
      rfl
    intro t _
    exact Respects.andThen (blind_finishSegment _ _) fun _ => Respects.pure fun _ _ => trivial
  · exact Respects.pure fun _ _ => trivial

theorem retains_of_spent {b : Archive} (h : (spending s').self = b.spent) (hr : Retains s.self b) :
    Retains s.self s'.self :=
  ⟨(congrArg Archive.directory h).trans hr.directory, (congrArg Archive.name h).trans hr.name,
    (congrArg Archive.writer h).trans hr.writer⟩

theorem Contains.finishSegment_run (h : Contains s.self s.host.disk (v :: vs))
    (hopen : v.segment.footer = none) {f : Footer} (hf : Volume.Describes f v) :
    ∃ s', finishSegment v.segment f s = (.ok (), s') ∧ Retains s.self s'.self ∧
      Contains s'.self s'.host.disk (v.finished f :: vs) := by
  obtain ⟨t, hrun, hself, hk⟩ := Kept.finishSegment_run (s := spending s) h hopen hf
  obtain ⟨s', hgo, rfl⟩ := (blind_finishSegment _ _).run hrun
  exact ⟨s', hgo, retains_of_spent (b := s.self.finished v.segment f) hself ⟨rfl, rfl, rfl⟩, hk⟩

theorem Contains.removeSegment_run (h : Contains s.self s.host.disk (v :: vs)) :
    ∃ s', removeSegment v.segment s = (.ok (), s') ∧ Retains s.self s'.self ∧
      Contains s'.self s'.host.disk vs := by
  obtain ⟨t, hrun, hself, hk⟩ := Kept.removeSegment_run (s := spending s) h
  obtain ⟨s', hgo, rfl⟩ := (blind_removeSegment _).run hrun
  exact ⟨s', hgo, retains_of_spent (b := s.self.struck v.segment.index) hself ⟨rfl, rfl, rfl⟩, hk⟩

/-- A merge of completed volumes fails and nothing is lost, or its output has the latest records. -/
theorem Contains.mergeRun_cases (h : Contains s.self s.host.disk vs)
    (hus : ∀ u ∈ us, u ∈ vs ∧ u.segment.isComplete) (newest : Footer) :
    (∃ e s', mergeRun (us.map Volume.segment) newest s = (.error e, s') ∧ Retains s.self s'.self ∧
      Contains s'.self s'.host.disk vs) ∨
    ∃ m outs s', mergeRun (us.map Volume.segment) newest s = (.ok m, s') ∧ Retains s.self s'.self ∧
      Contains s'.self s'.host.disk (outs ++ vs) ∧ m.inputs = (us.map Volume.segment).reverse ∧
      Relocates us outs newest.minKey newest.maxKey m.moves := by
  rcases h.createSegment_cases with ⟨e, s1, hcreate, hr, h1⟩ | ⟨out, s1, hcreate, hempty, hopen, hr, h1⟩
  · exact .inl ⟨e, s1, Task.bind_error hcreate, hr, h1⟩
  have hfill := Kept.fillOutput_cases
    (s := spending (announced s1 (us.map Volume.segment) newest out.segment)) h1 hempty hopen newest
    ((us.map Volume.segment).foldl
      (fun m s => min m ((s.footer.map Footer.mergedFrom).getD m)) newest.mergedFrom) hus
  rcases hfill with ⟨out', t, hgo, hself, hseg, h2, -⟩ | ⟨out', moves, t, hgo, hcases, h2⟩
  · obtain ⟨s2, hfill, rfl⟩ := (blind_fillOutput _ _ _ _).run hgo
    obtain ⟨s3, hremove, hr3, h3⟩ := Contains.removeSegment_run h2
    have hr2 : Retains s.self s2.self := retains_of_spent hself hr
    rw [hseg] at hremove
    exact .inl ⟨_, s3, mergeRun_of_error hcreate hfill (by simp) hremove, hr2.trans hr3, h3⟩
  obtain ⟨s2, hfill, rfl⟩ := (blind_fillOutput _ _ _ _).run hgo
  rcases hcases with ⟨rfl, hself, hseg, hrel, -⟩ | ⟨hne, f, hself, -, -, -, -, -, -, hrel, -⟩
  · obtain ⟨s3, hremove, hr3, h3⟩ := Contains.removeSegment_run h2
    have hr2 : Retains s.self s2.self := retains_of_spent hself hr
    rw [hseg] at hremove
    exact .inr ⟨_, [], s3, mergeRun_of_no_moves hcreate hfill hremove, hr2.trans hr3, h3, rfl, hrel⟩
  · have hr2 : Retains s.self s2.self :=
      retains_of_spent (b := s1.self.finished out.segment f) hself ⟨hr.directory, hr.name, hr.writer⟩
    exact .inr ⟨_, [out'], s2,
      mergeRun_of_moves hcreate hfill hne (Contains.syncDirectory_run h2), hr2, h2, rfl, hrel⟩

/-- The completed segments are those of completed volumes, each once. -/
theorem Contains.completed_eq (h : Contains a d vs) :
    ∃ line : List Volume, a.completed = line.map Volume.segment ∧ (line.map Volume.segment).Nodup ∧
      ∀ v ∈ line, v ∈ vs ∧ v.segment.isComplete := by
  have hp : a.completed.Perm ((vs.filter (·.segment.isComplete)).map Volume.segment) := by
    refine (Segment.sortByAge_perm _).trans ((h.holds.segments.filter _).trans (List.Perm.of_eq ?_))
    rw [List.filter_map]
    rfl
  obtain ⟨line, hline, heq⟩ := exists_map_of_perm hp
  have hnodup : (vs.map Volume.segment).Nodup :=
    List.pairwise_map.mpr (h.holds.apart.imp fun ha he => ha.index (congrArg Segment.index he))
  refine ⟨line, heq, ?_, fun v hv => List.mem_filter.mp (hline.mem_iff.mp hv)⟩
  exact (hline.map _).nodup_iff.mpr (hnodup.sublist (List.filter_sublist.map _))

theorem Contains.replay_run (h : Contains a d vs) :
    ∃ line, a.replay d = ((Volume.allEntries line).map fun e => (e.record.key, e.location), .ok ()) ∧
      ∀ v ∈ line, v ∈ vs ∧ v.segment.isComplete := by
  obtain ⟨line, hline, -, hmem⟩ := h.completed_eq
  refine ⟨line, ?_, hmem⟩
  rw [replay, hline]
  exact visitSegments_run fun v hv => ⟨h.holds.stored v (hmem v hv).1, (hmem v hv).2⟩

/-- A merge is refused or fails and nothing is lost, or its inputs are some of the volumes. -/
theorem Contains.prepareMerge_cases (h : Contains s.self s.host.disk vs) (files : List Segment) :
    (∃ r s', prepareMerge files s = (r, s') ∧ (∀ m, r ≠ .ok (some m)) ∧ Retains s.self s'.self ∧
      Contains s'.self s'.host.disk vs) ∨
    ∃ m us outs s' minKey maxKey, prepareMerge files s = (.ok (some m), s') ∧
      Retains s.self s'.self ∧ Contains s'.self s'.host.disk (outs ++ vs) ∧
      m.inputs.Perm (us.map Volume.segment) ∧ (us.map Volume.segment).Nodup ∧
      (∀ u ∈ us, u ∈ vs ∧ u.segment.isComplete) ∧ Relocates us outs minKey maxKey m.moves := by
  have hstay : Retains s.self s.self := ⟨rfl, rfl, rfl⟩
  rcases prepareMerge_choice files s with ⟨-, hgo⟩ | ⟨-, ⟨-, hgo⟩ | ⟨segments, hrun,
    ⟨-, hgo⟩ | ⟨newest, -, hstart⟩⟩⟩
  · exact .inl ⟨_, s, hgo, by simp, hstay, h⟩
  · exact .inl ⟨_, s, hgo, by simp, hstay, h⟩
  · exact .inl ⟨_, s, hgo, by simp, hstay, h⟩
  obtain ⟨line, hline, hnodup, hmem⟩ := h.completed_eq
  obtain ⟨first, rfl⟩ := contiguousRun?_eq hrun
  let us := (line.drop first).take (s.self.mergeable files).length
  have hsub : us.Sublist line := (List.take_sublist ..).trans (List.drop_sublist ..)
  have hsegments : (s.self.completed.drop first).take (s.self.mergeable files).length =
      us.map Volume.segment := by
    rw [hline, ← List.map_drop, ← List.map_take]
  have hall : ∀ u ∈ us, u ∈ vs ∧ u.segment.isComplete := fun u hu => hmem u (hsub.subset hu)
  rw [hsegments] at hstart
  rw [hstart, Task.map_run]
  rcases h.mergeRun_cases hall newest with ⟨e, s', hgo, hr, h'⟩ |
    ⟨m, outs, s', hgo, hr, h', hinputs, hrel⟩
  · rw [hgo]
    exact .inl ⟨_, s', rfl, by simp, hr, h'⟩
  · rw [hgo]
    refine .inr ⟨m, us, outs, s', _, _, rfl, hr, h', ?_, hnodup.sublist (hsub.map _), hall, hrel⟩
    rw [hinputs]
    exact List.reverse_perm _

end Archive

end MeteredStorage
