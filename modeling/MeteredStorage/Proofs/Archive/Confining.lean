import MeteredStorage.Archive.Opening
import MeteredStorage.Proofs.Archive.Fencing
import MeteredStorage.Proofs.Archive.Removal

namespace MeteredStorage

open MeteredStorage.Task (Respects)

def Host.rewritten (slots : List Nat) (fill : Nat → Bytes) (h : Host) : Host :=
  { h with disk := h.disk.rewrite slots fill }

def Hosted.rewritten {α : Type} (slots : List Nat) (fill : Nat → Bytes) (s : Hosted α) : Hosted α :=
  { s with host := s.host.rewritten slots fill }

namespace Archive

def holds (a : Archive) : List Hold :=
  a.segments.map Segment.hold ++ (a.writer.map fun w => w.segment.hold).toList

theorem hold_of_segment {a : Archive} {x : Segment} (h : x ∈ a.segments) : x.hold ∈ a.holds :=
  List.mem_append_left _ (List.mem_map_of_mem h)

theorem hold_of_writer {a : Archive} {w : Writer} (h : a.writer = some w) :
    w.segment.hold ∈ a.holds := by
  refine List.mem_append_right _ ?_
  rw [h]
  exact List.mem_singleton_self _

end Archive

def Merge.holds (m : Merge) : List Hold := (m.output :: m.inputs).map Segment.hold

namespace Fence

open Archive

variable {F : Fence} {fill : Nat → Bytes} {hs ks : List Hold} {α β ε : Type} {d : Disk}
  {s : Hosted Archive}

structure Confines (F : Fence) (hs : List Hold) (s : Hosted Archive) : Prop where
  directory : s.self.directory = F.directory
  name : s.self.name = F.name
  guards : F.Guards (hs ++ s.self.holds) s.host.disk

theorem Confines.owns (h : F.Confines hs s) {k : Hold} (hk : k ∈ hs ++ s.self.holds) : F.Owns k :=
  (h.guards.holds k hk).1

theorem Confines.mono (h : F.Confines hs s) (hk : ∀ k ∈ ks, k ∈ hs ++ s.self.holds) :
    F.Confines ks s := by
  refine ⟨h.directory, h.name, h.guards.mono fun k hm => ?_⟩
  rcases List.mem_append.mp hm with hm | hm
  · exact hk k hm
  · exact List.mem_append_right _ hm

theorem Confines.tail {k : Hold} (h : F.Confines (k :: hs) s) : F.Confines hs s :=
  h.mono fun _ hk => List.mem_append_left _ (List.mem_cons_of_mem _ hk)

theorem Confines.right (h : F.Confines (ks ++ hs) s) : F.Confines hs s :=
  h.mono fun _ hk => List.mem_append_left _ (List.mem_append_right _ hk)

/-- The task stays behind the fence, and goes alike whatever the files of the other archive hold. -/
def Obeys (F : Fence) (fill : Nat → Bytes) (hs : List Hold) (task : ArchiveTask α) : Prop :=
  Respects (Hosted.rewritten F.foreign fill) (F.Confines hs) (fun _ => F.Confines hs) task

theorem respects_hostDisk {task : DiskTask β} {k : β → List Hold}
    (h : Respects (Disk.rewrite F.foreign fill) (F.Guards hs) (fun b => F.Guards (k b ++ hs)) task) :
    Respects (Host.rewritten F.foreign fill) (fun h => F.Guards hs h.disk)
      (fun b h => F.Guards (k b ++ hs) h.disk) (Host.onDisk task) := by
  apply Respects.zoom (J := fun _ => F.Guards hs) (K := fun _ b => F.Guards (k b ++ hs))
  · intro _ _
    exact h
  · exact fun _ hs => hs
  · exact fun _ _ _ ht => ht
  · exact fun _ _ _ _ ht => ht
  · exact fun _ => rfl
  · exact fun _ _ => rfl

theorem respects_onDisk {task : DiskTask β} (k : β → List Hold)
    (h : ∀ hs, Respects (Disk.rewrite F.foreign fill) (F.Guards hs) (fun b => F.Guards (k b ++ hs)) task) :
    Respects (Hosted.rewritten F.foreign fill) (F.Confines hs) (fun b => F.Confines (k b ++ hs))
      (Hosted.onDisk task) := by
  apply Respects.zoom (J := fun s h => F.Guards (hs ++ s.self.holds) h.disk)
    (K := fun s b h => F.Guards (k b ++ (hs ++ s.self.holds)) h.disk)
  · intro s _
    exact respects_hostDisk (h _)
  · exact fun _ hs => hs.guards
  · exact fun _ _ hs ht => ⟨hs.directory, hs.name, ht⟩
  · exact fun _ _ _ hs ht => ⟨hs.directory, hs.name, by rw [List.append_assoc]; exact ht⟩
  · exact fun _ => rfl
  · exact fun _ _ => rfl

theorem obeys_onDisk {task : DiskTask β}
    (h : ∀ hs, Respects (Disk.rewrite F.foreign fill) (F.Guards hs) (fun _ => F.Guards hs) task) :
    F.Obeys fill hs (Hosted.onDisk task) :=
  respects_onDisk (fun _ => []) h

theorem obeys_update {f : Archive → Archive}
    (hf : ∀ a, (f a).directory = a.directory ∧ (f a).name = a.name ∧
      ∀ k ∈ (f a).holds, k ∈ hs ++ a.holds) :
    F.Obeys fill hs (Hosted.update f) := by
  apply Respects.modify
  · intro s hs
    obtain ⟨hd, hn, hk⟩ := hf s.self
    refine ⟨hd.trans hs.directory, hn.trans hs.name, hs.guards.mono fun k hm => ?_⟩
    rcases List.mem_append.mp hm with hm | hm
    · exact List.mem_append_left _ hm
    · exact hk k hm
  · intro _ _
    rfl

theorem obeys_count (f : ArchiveCounts → ArchiveCounts) : F.Obeys fill hs (count f) :=
  obeys_update fun _ => ⟨rfl, rfl, fun _ hk => List.mem_append_right _ hk⟩

theorem obeys_report (event : Event) : F.Obeys fill hs (Hosted.report event) :=
  fun _ hs => ⟨⟨hs.directory, hs.name, hs.guards⟩, fun _ _ => ⟨hs.directory, hs.name, hs.guards⟩, rfl⟩

/-- What the archive holds when its state is read may be used from then on. -/
theorem respects_get {f : Hosted Archive → ArchiveTask β} {R : β → Hosted Archive → Prop}
    (hg : ∀ s, F.Confines hs s → f (s.rewritten F.foreign fill) = f s)
    (hf : ∀ s, F.Confines hs s →
      Respects (Hosted.rewritten F.foreign fill) (F.Confines (s.self.holds ++ hs)) R (f s)) :
    Respects (Hosted.rewritten F.foreign fill) (F.Confines hs) R (get >>= f) := by
  apply Respects.getThen hg _ (fun _ _ h => h.right) hf
  intro s h
  exact h.mono fun k hk => List.mem_append.mpr (List.mem_append.mp hk).symm

theorem obeys_get {f : Hosted Archive → ArchiveTask β}
    (hg : ∀ s, F.Confines hs s → f (s.rewritten F.foreign fill) = f s)
    (hf : ∀ s, F.Confines hs s → F.Obeys fill (s.self.holds ++ hs) (f s)) :
    F.Obeys fill hs (get >>= f) :=
  respects_get hg fun s h => (hf s h).weaken fun _ _ ht => ht.right

theorem obeys_syncDirectory : F.Obeys fill hs syncDirectory := by
  apply Respects.get
  · intro _ _
    rfl
  · intro s _
    exact obeys_onDisk fun _ => respects_sync _

theorem respects_createSegment :
    Respects (Hosted.rewritten F.foreign fill) (F.Confines hs) (fun x => F.Confines (x.hold :: hs))
      createSegment := by
  apply Respects.get
  · intro _ _
    rfl
  intro s h
  dsimp only
  have hp : F.Reaches (s.self.pathOf s.self.nextIndex) := by
    rw [pathOf, h.directory, h.name]
    exact F.reaches_pathOf _
  apply Respects.andThen
  · apply obeys_update
    exact fun _ => ⟨rfl, rfl, fun _ hk => List.mem_append_right _ hk⟩
  intro _
  split
  · exact Respects.throwThen _ _
  apply (respects_onDisk (fun r => [(s.self.pathOf s.self.nextIndex, r.1)])
    fun _ => respects_createFile hp).bind
  · exact fun _ _ ht => ht.tail
  rintro ⟨own, handle⟩
  apply Respects.andThen
  · apply obeys_update
    refine fun a => ⟨rfl, rfl, fun k hk => ?_⟩
    rcases List.mem_append.mp hk with hk | hk
    · obtain ⟨x, hx, rfl⟩ := List.mem_map.mp hk
      rcases mem_enter hx with rfl | hx
      · exact List.mem_append_left _ (List.mem_cons_self ..)
      · exact List.mem_append_right _ (hold_of_segment hx)
    · exact List.mem_append_right _ (List.mem_append_right _ hk)
  · intro _
    exact (obeys_count _).andThen fun _ => Respects.pure fun _ ht => ht

theorem obeys_removeSegment {x : Segment} (hx : F.Reaches x.path) :
    F.Obeys fill hs (removeSegment x) := by
  have hremove : F.Obeys fill hs (Hosted.onDisk (Disk.unlinkIfPresent x.path)) :=
    obeys_onDisk fun _ => respects_unlinkIfPresent hx
  apply Respects.get
  · intro _ _
    rfl
  intro s _
  dsimp only
  split
  · apply Respects.andThen
    · apply obeys_update
      refine fun a => ⟨rfl, rfl, fun k hk => ?_⟩
      rcases List.mem_append.mp hk with hk | hk
      · obtain ⟨y, hy, rfl⟩ := List.mem_map.mp hk
        exact List.mem_append_right _ (hold_of_segment (List.mem_filter.mp hy).1)
      · exact List.mem_append_right _ (List.mem_append_right _ hk)
    · intro _
      exact (obeys_count _).andThen fun _ => hremove
  · exact hremove

theorem obeys_append {x : Segment} (hx : x.slot ∉ F.foreign)
    (offset : Nat) (r : Record) : F.Obeys fill hs (Hosted.onDisk (x.append offset r)) :=
  obeys_onDisk fun _ => respects_content hx (f := Bytes.overlay offset r.encode) fun _ => rfl

theorem obeys_finishSegment {x : Segment} (hx : x.slot ∉ F.foreign)
    (f : Footer) : F.Obeys fill hs (finishSegment x f) := by
  have hfinish : F.Obeys fill hs (Hosted.onDisk (x.finish f)) :=
    obeys_onDisk fun _ => respects_content hx
      (f := fun b => Bytes.resize (alignToPage f.dataSize.toNat) b ++ f.encode) fun _ => rfl
  refine hfinish.andThen fun _ => ?_
  apply obeys_update
  refine fun a => ⟨rfl, rfl, fun k hk => List.mem_append_right _ ?_⟩
  have hheld (t : Segment) : (if t.handle = x.handle then { t with footer := some f } else t).hold =
      t.hold := by
    split <;> rfl
  simpa [holds, Function.comp_def, hheld] using hk

theorem obeys_startWriting : F.Obeys fill hs startWriting := by
  apply Respects.get
  · intro _ _
    rfl
  intro s _
  dsimp only
  split
  · exact Respects.throwThen _ _
  apply respects_createSegment.bind
  · exact fun _ _ ht => ht.tail
  intro x
  apply (obeys_report _).andThen
  intro _
  apply Respects.weaken
  · apply obeys_update
    refine fun a => ⟨rfl, rfl, fun k hk => ?_⟩
    rcases List.mem_append.mp hk with hk | hk
    · exact List.mem_append_right _ (List.mem_append_left _ hk)
    · rw [List.mem_singleton.mp hk]
      exact List.mem_append_left _ (List.mem_cons_self ..)
  · exact fun _ _ ht => ht.tail

theorem obeys_store (r : Record) :
    F.Obeys fill hs (store r) := by
  apply obeys_get
  · intro _ _
    rfl
  intro s h
  cases hw : s.self.writer with
  | none => exact Respects.throw _
  | some w =>
      have hheld := hold_of_writer hw
      dsimp only
      split
      · exact Respects.throwThen _ _
      apply (Respects.ofExcept _ _).andThen
      intro location
      split
      · exact Respects.throwThen _ _
      apply (obeys_append (h.owns (List.mem_append_right _ hheld)).1 _ _).andThen
      intro _
      apply Respects.andThen
      · apply obeys_update
        refine fun a => ⟨rfl, rfl, fun k hk => ?_⟩
        rcases List.mem_append.mp hk with hk | hk
        · exact List.mem_append_right _ (List.mem_append_left _ hk)
        · rw [List.mem_singleton.mp hk]
          exact List.mem_append_left _ (List.mem_append_left _ hheld)
      · intro _
        exact (obeys_count _).andThen fun _ => (obeys_report _).andThen fun _ =>
          Respects.pure fun _ ht => ht

theorem obeys_shut : F.Obeys fill hs (Hosted.update fun a => { a with writer := none }) := by
  apply obeys_update
  refine fun a => ⟨rfl, rfl, fun k hk => List.mem_append_right _ (List.mem_append_left _ ?_)⟩
  simpa [holds] using hk

theorem obeys_endWriting (minKey maxKey : Int64) :
    F.Obeys fill hs (endWriting minKey maxKey) := by
  apply obeys_get
  · intro _ _
    rfl
  intro s h
  cases hw : s.self.writer with
  | none => exact Respects.throw _
  | some w =>
      have hheld := List.mem_append_right hs (hold_of_writer hw)
      -- From here on only the list of holds remembers that the file is the archive's own.
      apply obeys_shut.andThen
      intro _
      apply Respects.get
      · intro _ _
        rfl
      intro t _
      exact (obeys_finishSegment (h.owns hheld).1 _).andThen fun _ =>
        obeys_syncDirectory.andThen fun _ => obeys_report _

theorem Confines.fetch_rewritten (h : F.Confines hs s) (fill : Nat → Bytes) (location : Int64)
    (part : Part) (room : Nat) :
    s.self.fetch (s.host.disk.rewrite F.foreign fill) location part room =
      s.self.fetch s.host.disk location part room := by
  cases hl : Location.segment? location with
  | none => simp only [fetch, hl]
  | some index =>
      cases hx : s.self.segment? index with
      | none => rw [fetch_of_missing hl hx, fetch_of_missing hl hx]
      | some x =>
          have hown := h.owns (List.mem_append_right _
            (hold_of_segment (List.mem_of_find?_eq_some hx)))
          rw [fetch_of_segment hl hx, fetch_of_segment hl hx]
          exact Segment.read_congr (Disk.content_rewrite_of_not_mem hown.1 _) ..

theorem obeys_readInto (location : Int64) (part : Part)
    (buffer : Bytes) : F.Obeys fill hs (readInto location part buffer) := by
  apply Respects.get
  · intro s h
    have hf := h.fetch_rewritten fill location part buffer.length
    simp only [Hosted.rewritten, Host.rewritten, hf]
  intro s _
  apply (Respects.ofExcept _ _).andThen
  intro bytes
  exact (obeys_count _).andThen fun _ => Respects.pure fun _ ht => ht

theorem Guards.records_rewritten (h : F.Guards ks d) (fill : Nat → Bytes) {x : Segment}
    (hx : F.Reaches x.path) : x.records (d.rewrite F.foreign fill) = x.records d :=
  Segment.records_congr (Disk.directories_rewrite d) fun _ hf =>
    Disk.content_rewrite_of_not_mem (h.not_foreign_of_find hx hf) d

theorem obeys_copyRecords {output : Segment}
    (hout : output.slot ∉ F.foreign) (input : Segment) (offset : Nat) (rs : List PlacedRecord) :
    F.Obeys fill hs (copyRecords output input offset rs) := by
  induction rs generalizing offset with
  | nil => exact Respects.pure fun _ ht => ht
  | cons r rs ih =>
      unfold copyRecords
      split
      · exact Respects.throwThen _ _
      apply (obeys_append hout _ _).andThen
      intro _
      apply (Respects.ofExcept _ _).andThen
      intro source
      apply (Respects.ofExcept _ _).andThen
      intro target
      apply (ih _).andThen
      intro result
      exact Respects.pure fun _ ht => ht

theorem obeys_copyLatest {output : Segment}
    (hout : output.slot ∉ F.foreign) (minKey maxKey : Int64) {inputs : List Segment}
    (hin : ∀ x ∈ inputs, F.Reaches x.path) (seen : List Int64) (offset : Nat) :
    F.Obeys fill hs (copyLatest output minKey maxKey seen offset inputs) := by
  induction inputs generalizing seen offset with
  | nil => exact Respects.pure fun _ ht => ht
  | cons input rest ih =>
      have hrest := ih fun x hx => hin x (List.mem_cons_of_mem _ hx)
      apply Respects.get
      · intro s h
        have hr := h.guards.records_rewritten fill (hin input (List.mem_cons_self ..))
        simp only [Hosted.rewritten, Host.rewritten, hr]
      intro s _
      dsimp only
      apply (Respects.ofExcept _ _).andThen
      intro _
      apply (obeys_copyRecords hout _ _ _).andThen
      intro copied
      apply (hrest _ _).andThen
      intro more
      exact Respects.pure fun _ ht => ht

theorem obeys_fillOutput {output : Segment}
    (hout : output.slot ∉ F.foreign) (newest : Footer) (mergedFrom : UInt64) {inputs : List Segment}
    (hin : ∀ x ∈ inputs, F.Reaches x.path) :
    F.Obeys fill hs (fillOutput output newest mergedFrom inputs) := by
  apply (obeys_copyLatest hout _ _ hin _ _).andThen
  rintro ⟨moves, dataSize⟩
  dsimp only
  split
  · apply Respects.get
    · intro _ _
      rfl
    intro t _
    exact (obeys_finishSegment hout _).andThen fun _ => Respects.pure fun _ ht => ht
  · exact Respects.pure fun _ ht => ht

theorem respects_mergeRun {run : List Segment} (newest : Footer)
    (hrun : ∀ x ∈ run, x.hold ∈ hs ∧ F.Reaches x.path) :
    Respects (Hosted.rewritten F.foreign fill) (F.Confines hs) (fun m => F.Confines (m.holds ++ hs))
      (mergeRun run newest) := by
  have hin : ∀ x ∈ run.reverse, F.Reaches x.path := fun x hx => (hrun x (List.mem_reverse.mp hx)).2
  unfold mergeRun
  apply respects_createSegment.bind
  · exact fun _ _ ht => ht.tail
  intro output
  -- Two of the ends below remove the output, and by then the archive may not list it.
  apply Respects.knowing fun t ht =>
    ht.owns (List.mem_append_left _ (List.mem_cons_self (a := output.hold) (l := hs)))
  intro hown
  apply (obeys_report _).andThen
  intro _
  apply (obeys_fillOutput hown.1 _ _ hin).attempt.andThen
  intro r
  have hdone (dataSize : Nat) (moves : List Relocation) :
      Respects (Hosted.rewritten F.foreign fill) (F.Confines (output.hold :: hs))
        (fun m => F.Confines (m.holds ++ hs))
        (pure ⟨output, dataSize, run.reverse, moves⟩ : ArchiveTask Merge) := by
    apply Respects.pure
    refine fun t ht => ht.mono fun k hk => List.mem_append_left _ ?_
    rcases List.mem_append.mp hk with hk | hk
    · rcases List.mem_cons.mp hk with rfl | hk
      · exact List.mem_cons_self ..
      · obtain ⟨x, hx, rfl⟩ := List.mem_map.mp hk
        exact List.mem_cons_of_mem _ (hrun x (List.mem_reverse.mp hx)).1
    · exact List.mem_cons_of_mem _ hk
  split
  · exact Respects.throw _
  · exact (obeys_removeSegment hown.2).andThen fun _ => Respects.throw _
  · split
    · exact (obeys_removeSegment hown.2).andThen fun _ => hdone _ _
    · exact obeys_syncDirectory.andThen fun _ => hdone _ _

theorem respects_prepareMerge (files : List Segment) :
    Respects (Hosted.rewritten F.foreign fill) (F.Confines hs)
      (fun r => F.Confines ((r.map Merge.holds).getD [] ++ hs)) (prepareMerge files) := by
  apply respects_get
  · intro _ _
    rfl
  intro s h
  dsimp only
  split
  · exact Respects.pure fun _ ht => ht.right
  cases hrun : contiguousRun? s.self.completed (s.self.mergeable files) with
  | none => exact Respects.throw _
  | some run =>
      dsimp only
      split
      · exact Respects.pure fun _ ht => ht.right
      · rename_i newest _
        have hheld : ∀ x ∈ run, x.hold ∈ s.self.holds := by
          obtain ⟨first, rfl⟩ := contiguousRun?_eq hrun
          intro x hx
          exact hold_of_segment (mem_completed.mp (List.mem_of_mem_drop (List.mem_of_mem_take hx))).1
        apply (respects_mergeRun newest fun x hx => ⟨List.mem_append_left _ (hheld x hx),
          (h.owns (List.mem_append_right _ (hheld x hx))).2⟩).bind
        · exact fun _ _ ht => ht.right
        · intro m
          apply Respects.pure
          refine fun t ht => ht.mono fun k hk => List.mem_append_left _ ?_
          rcases List.mem_append.mp hk with hk | hk
          · exact List.mem_append_left _ hk
          · exact List.mem_append_right _ (List.mem_append_right _ hk)

theorem obeys_removeSegments {inputs : List Segment}
    (hin : ∀ x ∈ inputs, F.Reaches x.path) : F.Obeys fill hs (removeSegments inputs) := by
  induction inputs with
  | nil => exact Respects.pure fun _ ht => ht
  | cons x rest ih =>
      exact (obeys_removeSegment (hin x (List.mem_cons_self ..))).andThen fun _ =>
        ih fun y hy => hin y (List.mem_cons_of_mem _ hy)

theorem obeys_finishMerge {m : Merge}
    (hin : ∀ x ∈ m.inputs, F.Reaches x.path) : F.Obeys fill hs (finishMerge m) := by
  apply (obeys_removeSegments hin).andThen
  intro _
  exact obeys_syncDirectory.andThen fun _ => (obeys_count _).andThen fun _ => obeys_report _

theorem obeys_close : F.Obeys fill hs close := by
  apply Respects.get
  · intro _ _
    rfl
  intro s _
  dsimp only
  split
  · exact obeys_shut.andThen fun _ => (obeys_report _).andThen fun _ => obeys_syncDirectory
  · exact obeys_syncDirectory

theorem obeys_removeFiles {segments : List Segment}
    (hin : ∀ x ∈ segments, F.Reaches x.path) : F.Obeys fill hs (removeFiles segments) := by
  induction segments with
  | nil => exact Respects.pure fun _ ht => ht
  | cons x rest ih =>
      have hremove : F.Obeys fill hs (Hosted.onDisk (Disk.unlinkIfPresent x.path)) :=
        obeys_onDisk fun _ => respects_unlinkIfPresent (hin x (List.mem_cons_self ..))
      exact hremove.andThen fun _ => ih fun y hy => hin y (List.mem_cons_of_mem _ hy)

theorem obeys_destroy : F.Obeys fill hs destroy := by
  apply Respects.get
  · intro _ _
    rfl
  intro s h
  dsimp only
  apply Respects.andThen
  · apply obeys_update
    exact fun _ => ⟨rfl, rfl, nofun⟩
  intro _
  apply (obeys_removeFiles fun x hx =>
    (h.owns (List.mem_append_right _ (hold_of_segment hx))).2).andThen
  intro _
  apply (obeys_count _).andThen
  intro _
  apply (obeys_onDisk fun _ => respects_removeDirectory _).attempt.andThen
  intro r
  split
  · exact Respects.pure fun _ ht => ht
  · exact obeys_report _
  · exact Respects.pure fun _ ht => ht

theorem respects_hostReport (event : Event) :
    Respects (Host.rewritten F.foreign fill) (fun h => F.Guards hs h.disk) (fun _ h => F.Guards hs h.disk)
      (Host.report event : Task Host ε Unit) :=
  Respects.modify (fun _ h => h) fun _ _ => rfl

theorem respects_findSegment {found : Found} {file : String} {own : Nat}
    {index : UInt32} (hown : (Path.join F.directory file, own) ∈ hs)
    (hfound : ∀ x ∈ found.segments, x.hold ∈ hs) :
    Respects (Host.rewritten F.foreign fill) (fun h => F.Guards hs h.disk)
      (fun found h => F.Guards hs h.disk ∧ ∀ x ∈ found.segments, x.hold ∈ hs)
      (findSegment F.directory found file own index) := by
  unfold findSegment
  split
  · exact Respects.throwThen _ _
  dsimp only
  apply (Respects.ofExcept _ _).andThen
  intro _
  apply Respects.get
  · intro h hd
    have hc : (h.rewritten F.foreign fill).disk.content own = h.disk.content own :=
      Disk.content_rewrite_of_not_mem (hd.holds _ hown).1.1 h.disk
    simp only [hc]
  intro h hd
  apply (Respects.ofExcept _ _).andThen
  intro footer
  cases footer with
  | some f =>
      apply (respects_hostDisk (k := fun _ => []) respects_openHandle).andThen
      intro handle
      apply (respects_hostReport _).andThen
      intro _
      apply Respects.pure
      refine fun t ht => ⟨ht, fun x hx => ?_⟩
      rcases mem_enter hx with rfl | hx
      · exact hown
      · exact hfound x hx
  | none =>
      apply (respects_hostReport _).andThen
      intro _
      apply (respects_hostDisk (k := fun _ => [])
        (respects_unlink (hd.holds _ hown).1.2)).andThen
      intro _
      exact Respects.pure fun t ht => ⟨ht, hfound⟩

theorem respects_findSegments {files : List (String × Node)}
    {found : Found} (hfiles : ∀ k ∈ F.listedHolds files, k ∈ hs)
    (hfound : ∀ x ∈ found.segments, x.hold ∈ hs) :
    Respects (Host.rewritten F.foreign fill) (fun h => F.Guards hs h.disk)
      (fun found h => F.Guards hs h.disk ∧ ∀ x ∈ found.segments, x.hold ∈ hs)
      (findSegments F.directory F.name files found) := by
  induction files generalizing found with
  | nil => exact Respects.pure fun _ ht => ⟨ht, hfound⟩
  | cons e files ih =>
      obtain ⟨file, node⟩ := e
      cases node with
      | directory number => exact ih hfiles hfound
      | file own =>
          unfold findSegments
          cases hi : SegmentName.index? F.name file with
          | none =>
              refine ih (fun k hk => hfiles k ?_) hfound
              simpa [listedHolds, ListedFile.all, ListedFile.listed?, hi] using hk
          | some index =>
              have hall : F.listedHolds ((file, Node.file own) :: files) =
                  (Path.join F.directory file, own) :: F.listedHolds files := by
                simp [listedHolds, ListedFile.all, ListedFile.listed?, hi]
              rw [hall] at hfiles
              apply (respects_findSegment (hfiles _ (List.mem_cons_self ..)) hfound).bind
              · exact fun _ _ ht => ht.1
              intro found'
              exact Respects.assume (ih fun k hk => hfiles k (List.mem_cons_of_mem _ hk))

theorem respects_removeCovered {segments : List Segment}
    (hin : ∀ x ∈ segments, F.Reaches x.path) :
    Respects (Host.rewritten F.foreign fill) (fun h => F.Guards hs h.disk) (fun _ h => F.Guards hs h.disk)
      (removeCovered segments) := by
  induction segments with
  | nil => exact Respects.pure fun _ ht => ht
  | cons x rest ih =>
      apply (respects_hostReport _).andThen
      intro _
      apply (respects_hostDisk (k := fun _ => [])
        (respects_unlinkIfPresent (hin x (List.mem_cons_self ..)))).andThen
      intro _
      exact ih fun y hy => hin y (List.mem_cons_of_mem _ hy)

theorem respects_init :
    Respects (Host.rewritten F.foreign fill) (fun h => F.Guards hs h.disk)
      (fun a h => F.Confines [] ⟨a, h⟩) (init F.directory F.name) := by
  apply (respects_hostDisk (k := fun _ => []) (respects_makeFirst _)).andThen
  intro _
  apply (respects_hostDisk (k := F.listedHolds) (respects_list _)).bind
  · exact fun _ _ ht => ht.mono fun _ hk => List.mem_append_right _ hk
  intro files
  apply (respects_findSegments (fun k hk => List.mem_append_left hs hk)
    fun x hx => absurd hx List.not_mem_nil).bind
  · exact fun _ _ ht => ht.1
  intro found
  apply Respects.assume
  intro hfound
  -- Covered segments are removed before there is an archive that could hold them.
  apply Respects.knowing fun t ht => fun x hx => (ht.holds _ (hfound x hx)).1.2
  intro hreaches
  apply (respects_removeCovered fun x hx => hreaches x (List.mem_filter.mp hx).1).andThen
  intro _
  apply (respects_hostDisk (k := fun _ => []) (respects_sync _)).andThen
  intro _
  apply Respects.pure
  refine fun t ht => ⟨rfl, rfl, ht.mono fun k hk => ?_⟩
  have hheld : k ∈ (found.segments.filter fun x => !isCovered found.segments x).map Segment.hold := by
    simpa [holds] using hk
  obtain ⟨x, hx, rfl⟩ := List.mem_map.mp hheld
  exact hfound x (List.mem_filter.mp hx).1

end Fence

end MeteredStorage
