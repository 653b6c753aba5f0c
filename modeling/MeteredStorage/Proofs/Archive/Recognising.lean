import MeteredStorage.Proofs.Archive.Counting
import MeteredStorage.Proofs.Segment.Spelling

namespace MeteredStorage

open SegmentName (Plain index?)
open MeteredStorage.Task (Ensures Upholds)

namespace Disk

def FilesPlain (d : Disk) : Prop :=
  ∀ n file slot, (file, Node.file slot) ∈ d.entries n → Plain file

structure Pruned (start : Disk) (name : String) (d : Disk) : Prop where
  directories : Keeps start d
  others : ∀ n, ∀ e ∈ start.entries n, index? name e.1 = none → e ∈ d.entries n
  files : ∀ n file slot, (file, Node.file slot) ∈ d.entries n → (file, Node.file slot) ∈ start.entries n
  contents : d.contents = start.contents

variable {start d d' : Disk} {name file : String} {index : UInt32} {path directory : Path} {p : Place}
  {slot : Nat}

namespace Pruned

theorem refl (d : Disk) (name : String) : d.Pruned name d :=
  ⟨fun _ _ h => h, fun _ _ h _ => h, fun _ _ _ h => h, rfl⟩

theorem trans (h : start.Pruned name d) (h' : d.Pruned name d') : start.Pruned name d' where
  directories p n hp := h'.directories p n (h.directories p n hp)
  others n e he hi := h'.others n e (h.others n e he hi) hi
  files n file slot he := h.files n file slot (h'.files n file slot he)
  contents := h'.contents.trans h.contents

theorem opened (d : Disk) (name : String) : d.Pruned name (openHandle d).2 :=
  ⟨fun _ _ h => h, fun _ _ h _ => h, fun _ _ _ h => h, rfl⟩

theorem directoryMade (d : Disk) (name : String) (p : Place) :
    d.Pruned name (d.changed (.makeDirectory p)) := by
  have hstays : ∀ n, ∀ e ∈ d.entries n, e ∈ (d.changed (.makeDirectory p)).entries n := by
    intro n e he
    rw [entries_directoryMade, entries_insertNode]
    split
    · exact List.mem_append_left _ he
    · exact he
  refine ⟨fun q n hq => ?_, fun n e he _ => hstays n e he, fun n file slot he => ?_, rfl⟩
  · rw [node?] at hq
    rw [node?, entries_directoryMade, entries_insertNode]
    split
    · rw [List.lookup_append, hq]
      rfl
    · exact hq
  · rw [entries_directoryMade, entries_insertNode] at he
    split at he
    · simpa using he
    · exact he

theorem unlinked (hn : d.node? p = some (.file slot)) (hi : index? name p.name = some index) :
    d.Pruned name (d.changed (.unlink p)) := by
  refine ⟨(frame_unlinked hn).keeps, fun n e he hother => ?_, fun n file slot he => ?_, rfl⟩
  · rw [entries_unlinked]
    split
    · refine List.mem_filter.mpr ⟨he, bne_iff_ne.mpr fun hname => ?_⟩
      rw [hname, hi] at hother
      cases hother
    · exact he
  · rw [entries_unlinked] at he
    split at he
    · exact (List.mem_filter.mp he).1
    · exact he

end Pruned

theorem upholds_makeDirectory (start : Disk) (name : String) (path : Path) :
    Upholds (start.Pruned name) (fun _ => True) (makeDirectory path) := by
  intro d hd
  rcases makeDirectory_cases path d with ⟨e, hrun⟩ | ⟨p, -, hrun⟩
  · rw [hrun]
    exact hd
  · rw [hrun]
    exact ⟨hd.trans (.directoryMade d name p), trivial⟩

theorem upholds_ensureDirectory (start : Disk) (name : String) (path : Path) :
    Upholds (start.Pruned name) (fun _ => True) (ensureDirectory path) := by
  refine (upholds_makeDirectory start name path).attempt.then fun r _ => ?_
  cases r with
  | ok _ => exact Upholds.pure trivial
  | error e =>
      refine Upholds.get fun d _ => ?_
      split
      · exact Upholds.pure trivial
      · exact Upholds.throw e

theorem upholds_makeFirst (start : Disk) (name : String) (paths : List Path) :
    Upholds (start.Pruned name) (fun _ => True) (makeFirst paths) := by
  induction paths with
  | nil => exact Upholds.throw _
  | cons path outer ih =>
      refine (upholds_ensureDirectory start name path).attempt.then fun r _ => ?_
      split
      · exact Upholds.pure trivial
      · exact ih.then fun _ _ => upholds_ensureDirectory start name path
      · exact Upholds.throw _

theorem upholds_sync (start : Disk) (name : String) (path : Path) :
    Upholds (start.Pruned name) (fun _ => True) (sync path) := by
  refine Upholds.then (Upholds.get fun d _ => Upholds.ofExcept id _) fun node _ => ?_
  cases node with
  | none => exact Upholds.throw _
  | some node => exact Upholds.pure trivial

theorem list_cases (path : Path) (d : Disk) :
    (∃ e, list path d = (.error e, d)) ∨
      ∃ n, d.find path = .ok (some (.directory n)) ∧ list path d = (.ok (d.entries n), d) := by
  cases hfind : d.find path with
  | error e => exact .inl ⟨e, by simp [list, look, hfind]⟩
  | ok node =>
      rcases node with _ | n | slot
      · exact .inl ⟨.notFound, by simp [list, look, hfind]⟩
      · exact .inr ⟨n, rfl, list_run hfind⟩
      · exact .inl ⟨.notADirectory, by simp [list, look, hfind]⟩

/-- What is removed by the path of a file is that file, if its name spells an index. -/
theorem unlink_join (hf : Plain file) (hi : index? name file = some index) (d : Disk) :
    (∃ e, unlink (Path.join directory file) d = (.error e, d)) ∨
      ∃ trail slot, d.walk [] (Path.unclosed directory) = .ok trail ∧
        d.node? (Trail.place trail file) = some (.file slot) ∧
        unlink (Path.join directory file) d = (.ok (), d.changed (.unlink (Trail.place trail file))) := by
  rcases unlink_cases (Path.join directory file) d with he | ⟨trail, last, slot, ht, hm, hrun⟩
  · exact .inl he
  · obtain ⟨reached, hwalk, he⟩ := Archive.target_join hf hi ht
    cases he
    exact .inr ⟨trail, slot, hwalk, (meaning_eq_ok hm).2, hrun⟩

theorem upholds_unlink (start : Disk) (directory : Path) (hf : Plain file) (hi : index? name file = some index) :
    Upholds (start.Pruned name) (fun _ => True) (unlink (Path.join directory file)) := by
  intro d hd
  rcases unlink_join hf hi d with ⟨e, hrun⟩ | ⟨trail, slot, -, hn, hrun⟩
  · rw [hrun]
    exact hd
  · rw [hrun]
    exact ⟨hd.trans (.unlinked hn hi), trivial⟩

theorem pruned_of_unlink {r : Except DiskError Unit} (hf : Plain file) (hi : index? name file = some index)
    (hrun : unlink (Path.join directory file) d = (r, d')) : d.Pruned name d' := by
  have hstate := (upholds_unlink d directory hf hi).state (.refl d name)
  rwa [hrun] at hstate

theorem upholds_unlinkIfPresent (start : Disk) (directory : Path) (hf : Plain file)
    (hi : index? name file = some index) :
    Upholds (start.Pruned name) (fun _ => True) (unlinkIfPresent (Path.join directory file)) := by
  refine (upholds_unlink start directory hf hi).attempt.then fun r _ => ?_
  split
  · exact Upholds.pure trivial
  · exact Upholds.pure trivial
  · exact Upholds.throw _

theorem unlink_gone {n : Nat} (hfind : d.find directory = .ok (some (.directory n))) (hf : Plain file)
    (hi : index? name file = some index) (hrun : unlink (Path.join directory file) d = (.ok (), d')) :
    ∀ e ∈ d'.entries n, e.1 ≠ file := by
  rcases unlink_join hf hi d with ⟨e, herror⟩ | ⟨trail, slot, hwalk, -, hok⟩
  · rw [herror] at hrun
    cases hrun
  · obtain ⟨reached, hreached, hnumber⟩ := walk_of_find hfind
    rw [hreached] at hwalk
    cases hwalk
    rw [hok] at hrun
    cases hrun
    intro e he
    rw [entries_unlinked, if_pos (show n = (Trail.place trail file).directory from hnumber.symm)] at he
    exact bne_iff_ne.mp (List.mem_filter.mp he).2

end Disk

namespace Archive

variable {directory : Path} {name : String} {start d d' : Disk} {host host' : Host} {a : Archive}
  {found found' : Found} {todo : List ListedFile} {f : ListedFile}

/-- The file was never completed for the index that its name spells. -/
def Unfinished (d : Disk) (f : ListedFile) : Prop :=
  Segment.completeFooter? f.index (d.content f.slot) = .ok none

def Recognised (start : Disk) (directory : Path) (name : String) (x : Segment) : Prop :=
  ∃ (sp : Spelling) (n : Nat), (sp.fileName name x.index, .file x.slot) ∈ start.entries n ∧
    x.path = Path.join directory (sp.fileName name x.index)

structure Sifted (start : Disk) (directory : Path) (name : String) (todo : List ListedFile) (d : Disk) :
    Prop where
  pruned : start.Pruned name d
  listed : ∀ f ∈ todo, ∃ n, f ∈ ListedFile.all name (start.entries n)
  left : ∀ n, start.find directory = .ok (some (.directory n)) →
    ∀ f ∈ ListedFile.all name (d.entries n), Unfinished start f → f ∈ todo

theorem mem_all_of_pruned (h : start.Pruned name d) {n : Nat} (hf : f ∈ ListedFile.all name (d.entries n)) :
    f ∈ ListedFile.all name (start.entries n) := by
  obtain ⟨he, hi⟩ := ListedFile.mem_all_iff.mp hf
  exact ListedFile.mem_all_iff.mpr ⟨h.files n _ _ he, hi⟩

theorem Sifted.trans (h : Sifted start directory name todo d) (h' : d.Pruned name d') :
    Sifted start directory name todo d' :=
  ⟨h.pruned.trans h', h.listed, fun n hn f hf => h.left n hn f (mem_all_of_pruned h' hf)⟩

theorem Sifted.pass (h : Sifted start directory name (f :: todo) d) (hf : ¬Unfinished start f) :
    Sifted start directory name todo d := by
  refine ⟨h.pruned, fun g hg => h.listed g (List.mem_cons_of_mem _ hg), fun n hn g hg hu => ?_⟩
  rcases List.mem_cons.mp (h.left n hn g hg hu) with rfl | hm
  · exact absurd hu hf
  · exact hm

theorem Sifted.removed (h : Sifted start directory name (f :: todo) d) (hf : Plain f.name)
    (hi : index? name f.name = some f.index)
    (hrun : Disk.unlink (Path.join directory f.name) d = (.ok (), d')) :
    Sifted start directory name todo d' := by
  have hpruned := Disk.pruned_of_unlink hf hi hrun
  refine ⟨h.pruned.trans hpruned, fun g hg => h.listed g (List.mem_cons_of_mem _ hg), fun n hn g hg hu => ?_⟩
  rcases List.mem_cons.mp ((h.trans hpruned).left n hn g hg hu) with rfl | hm
  · have hfind := Disk.find_directory_mono h.pruned.directories hn
    exact absurd rfl (Disk.unlink_gone hfind hf hi hrun _ (ListedFile.name_of_mem hg).1)
  · exact hm

theorem ensures_sifted {α : Type} {task : DiskTask α}
    (h : ∀ d : Disk, Upholds (d.Pruned name) (fun _ => True) task) :
    Ensures (fun h => Sifted start directory name todo h.disk)
      (fun _ h => Sifted start directory name todo h.disk) (fun _ h => start.Pruned name h.disk)
      (Host.onDisk task) := by
  refine ensures_hostDisk fun d hd => ?_
  have hstate := (h d).state (.refl d name)
  split
  · rename_i hrun
    rw [hrun] at hstate
    exact hd.trans hstate
  · rename_i hrun
    rw [hrun] at hstate
    exact hd.pruned.trans hstate

/-- A file that is listed is opened if it is complete and removed if it is not. -/
theorem sifts_findSegment (hplain : start.FilesPlain) (todo : List ListedFile) (found : Found) :
    Ensures (fun h => Sifted start directory name (f :: todo) h.disk ∧
        ∀ x ∈ found.segments, Recognised start directory name x)
      (fun found' h => Sifted start directory name todo h.disk ∧
        ∀ x ∈ found'.segments, Recognised start directory name x)
      (fun _ h => start.Pruned name h.disk) (findSegment directory found f.name f.slot f.index) := by
  unfold findSegment
  split
  · exact Ensures.throw fun _ hs => hs.1.pruned
  refine Ensures.bind (Ensures.ofExcept (fun _ _ _ hs => hs) fun _ _ hs => hs.1.pruned) fun _ => ?_
  refine Ensures.get fun host ⟨hs, hfound⟩ => ?_
  obtain ⟨n, hlisted⟩ := hs.listed f (List.mem_cons_self ..)
  obtain ⟨hentry, hi⟩ := ListedFile.mem_all_iff.mp hlisted
  have hf := hplain n _ _ hentry
  have hcontent : host.disk.content f.slot = start.content f.slot := by
    rw [Disk.content, Disk.content, hs.pruned.contents]
  refine Ensures.bind (Q := fun footer t => t = host ∧
      Segment.completeFooter? f.index (start.content f.slot) = .ok footer)
    (Ensures.ofExcept (fun _ _ hr ht => ⟨ht, hcontent ▸ hr⟩) fun _ _ ht => ht ▸ hs.pruned) fun footer => ?_
  cases footer with
  | some footer =>
      refine Ensures.bind (Q := fun _ h => Sifted start directory name todo h.disk) ?_ fun handle =>
        (ensures_hostReport _).bind fun _ => Ensures.pure fun t ht => ⟨ht, fun x hx => ?_⟩
      · rintro t ⟨rfl, hfooter⟩
        refine (hs.pass fun hu => ?_).trans (.opened t.disk name)
        rw [Unfinished, hfooter] at hu
        cases hu
      · rcases mem_enter hx with rfl | hx
        · obtain ⟨sp, hname⟩ := SegmentName.index?_eq_some_iff.mp hi
          exact ⟨sp, n, hname ▸ hentry, congrArg (Path.join directory) hname⟩
        · exact hfound x hx
  | none =>
      refine Ensures.bind (Q := fun _ h => Sifted start directory name (f :: todo) h.disk) ?_ fun _ => ?_
      · rintro t ⟨rfl, -⟩
        exact hs
      refine (ensures_hostDisk (Q := fun _ d => Sifted start directory name todo d) fun d hd => ?_).bind
        fun _ => Ensures.pure fun t ht => ⟨ht, hfound⟩
      rcases hrun : Disk.unlink (Path.join directory f.name) d with ⟨_ | _, d'⟩
      · exact hd.pruned.trans (Disk.pruned_of_unlink hf hi hrun)
      · exact hd.removed hf hi hrun

theorem sifts_removeCovered {segments : List Segment} (hplain : start.FilesPlain)
    (hsegments : ∀ x ∈ segments, Recognised start directory name x) :
    Ensures (fun h => Sifted start directory name todo h.disk)
      (fun _ h => Sifted start directory name todo h.disk) (fun _ h => start.Pruned name h.disk)
      (removeCovered segments) := by
  induction segments with
  | nil => exact Ensures.pure fun _ hs => hs
  | cons x segments ih =>
      obtain ⟨sp, n, hentry, hpath⟩ := hsegments x (List.mem_cons_self ..)
      have hi : index? name (sp.fileName name x.index) = some x.index :=
        SegmentName.index?_eq_some_iff.mpr ⟨sp, rfl⟩
      refine (ensures_hostReport _).bind fun _ => Ensures.bind (ensures_sifted fun d => ?_) fun _ =>
        ih fun y hy => hsegments y (List.mem_cons_of_mem _ hy)
      rw [hpath]
      exact Disk.upholds_unlinkIfPresent d directory (hplain n _ _ hentry) hi

theorem sifts_list (start : Disk) (directory : Path) (name : String) :
    Ensures (start.Pruned name)
      (fun files d => Sifted start directory name (ListedFile.all name files) d)
      (fun _ => start.Pruned name) (Disk.list directory) := by
  intro d hd
  rcases Disk.list_cases directory d with ⟨e, hrun⟩ | ⟨m, hfind, hrun⟩
  · rw [hrun]
    exact hd
  · rw [hrun]
    refine ⟨hd, fun f hf => ⟨m, mem_all_of_pruned hd hf⟩, fun n hn f hf _ => ?_⟩
    have hsame := Disk.find_directory_mono hd.directories hn
    rw [hfind] at hsame
    cases hsame
    exact hf

/--
An opening leaves all files whose names spell no index, and none of the directory that was never
completed for the index that its name spells. The archive has files that were in a directory before.
-/
theorem sifts_init (hplain : start.FilesPlain) :
    Ensures (fun h => h.disk = start)
      (fun a h => Sifted start directory name [] h.disk ∧
        ∀ x ∈ a.segments, Recognised start directory name x)
      (fun _ h => start.Pruned name h.disk) (init directory name) := by
  have hmake : Ensures (· = start) (fun _ => start.Pruned name) (fun _ => start.Pruned name)
      (Disk.makeDirectories directory) :=
    Ensures.mono (Disk.upholds_makeFirst start name _) (fun _ hd => hd ▸ .refl start name)
      (fun _ _ hd => hd.1) fun _ _ hd => hd
  refine (ensures_hostDisk hmake).bind fun _ =>
    (ensures_hostDisk (sifts_list start directory name)).bind fun files => ?_
  have hsearch : Ensures (fun h => Sifted start directory name (ListedFile.all name files) h.disk)
      (fun found h => Sifted start directory name [] h.disk ∧
        ∀ x ∈ found.segments, Recognised start directory name x)
      (fun _ h => start.Pruned name h.disk) (findSegments directory name files ⟨[], 0⟩) :=
    Ensures.mono (ensures_findSegments_of_step (P := fun todo found h =>
      Sifted start directory name todo h.disk ∧
        ∀ x ∈ found.segments, Recognised start directory name x)
      (fun _ => sifts_findSegment hplain) files ⟨[], 0⟩)
      (fun _ hs => ⟨hs, nofun⟩) (fun _ _ hs => hs) fun _ _ hs => hs
  refine hsearch.bind fun found => ?_
  rintro host ⟨hs, hfound⟩
  have hkept : ∀ p, ∀ x ∈ found.segments.filter p, Recognised start directory name x :=
    fun p x hx => hfound x (List.mem_filter.mp hx).1
  refine (sifts_removeCovered hplain (hkept _)).bind (fun _ => ?_) host hs
  refine (ensures_sifted fun d => Disk.upholds_sync d name directory).bind fun _ => ?_
  exact Ensures.pure fun _ ht => ⟨ht, hkept _⟩

/--
An index is read in every spelling, of which only one is that of a file name that is given to a segment.
Whatever comes of it, an opening removes no files but those whose names spell an index, and changes no
content. An archive that is opened has one segment of an index and counts each; it is one of the files
with that index, in any spelling. Every file in the directory of the archive that was never completed for
the index it spells has been removed.
-/
theorem init_recognises_spellings (directory : Path) (name : String) (host : Host)
    (hplain : host.disk.FilesPlain) :
    (∀ file index, index? name file = some index ↔ ∃ sp : Spelling, file = sp.fileName name index) ∧
      (∀ index (sp : Spelling),
        sp.fileName name index = SegmentName.ofIndex name index ↔ sp = .generated index) ∧
      host.disk.Pruned name (init directory name host).2.disk ∧
      ∀ a, (init directory name host).1 = .ok a →
        (a.segments.map Segment.index).Nodup ∧ a.counts.segments = a.segments.length ∧
        (∀ x ∈ a.segments, Recognised host.disk directory name x) ∧
        ∀ n, host.disk.find directory = .ok (some (.directory n)) →
          ∀ f ∈ ListedFile.all name (host.disk.entries n), Unfinished host.disk f →
            (f.name, .file f.slot) ∉ (init directory name host).2.disk.entries n := by
  refine ⟨fun file index => SegmentName.index?_eq_some_iff, fun index sp => ⟨fun h => ?_, ?_⟩, ?_⟩
  · exact Spelling.fileName_inj (h.trans (Spelling.fileName_generated name index).symm)
  · rintro rfl
    exact Spelling.fileName_generated name index
  · rcases hrun : init directory name host with ⟨r, host'⟩
    rcases (sifts_init hplain).run rfl hrun with ⟨a, rfl, hs, hsegments⟩ | ⟨e, rfl, hpruned⟩
    · refine ⟨hs.pruned, fun a' ha => ?_⟩
      cases ha
      have htallied := init_tallied hrun
      have hcount := congrArg ArchiveCounts.segments htallied.counts
      refine ⟨htallied.nodup, hcount, hsegments, fun n hn f hf hu he => ?_⟩
      have hstays := ListedFile.mem_all_iff.mpr ⟨he, (ListedFile.name_of_mem hf).2⟩
      exact List.not_mem_nil (hs.left n hn f hstays hu)
    · refine ⟨hpruned, fun a ha => ?_⟩
      cases ha

def misnamed : Host where
  disk := {
    directories := #[[("test_7.dat", .file 0), ("test_+8.dat", .file 1), ("test_7.bak", .file 2)]]
    contents := List.replicate 3 (List.replicate 8 1) }
  clock := 0

/-- Two of them are taken for segments that were never completed, and removed. -/
theorem init_recognises_spellings_misnamed :
    misnamed.disk.FilesPlain ∧
      (∀ index, SegmentName.ofIndex "test" index ∉ ["test_7.dat", "test_+8.dat", "test_7.bak"]) ∧
      (∃ a, (init [] "test" misnamed).1 = .ok a) ∧
      ("test_7.dat", .file 0) ∉ (init [] "test" misnamed).2.disk.entries 0 ∧
      ("test_+8.dat", .file 1) ∉ (init [] "test" misnamed).2.disk.entries 0 ∧
      ("test_7.bak", .file 2) ∈ (init [] "test" misnamed).2.disk.entries 0 := by
  have hentries : ∀ n, ∀ e ∈ misnamed.disk.entries n, e ∈ misnamed.disk.entries 0 := by
    intro n e he
    cases n with
    | zero => exact he
    | succ n => simp [Disk.entries, misnamed] at he
  have hplain : misnamed.disk.FilesPlain := by
    intro n file slot he
    have hall : ∀ e ∈ misnamed.disk.entries 0, Plain e.1 := by decide +kernel
    exact hall _ (hentries n _ he)
  have hlisted : ListedFile.all "test" (misnamed.disk.entries 0) =
      [⟨"test_7.dat", 0, 7⟩, ⟨"test_+8.dat", 1, 8⟩] := by decide +kernel
  have hok : (init [] "test" misnamed).1.toOption.isSome = true := by decide +kernel
  obtain ⟨-, -, hpruned, hinit⟩ := init_recognises_spellings [] "test" misnamed hplain
  have hnames : ∀ file ∈ ["test_7.dat", "test_+8.dat", "test_7.bak"],
      (index? "test" file).any (fun index => SegmentName.ofIndex "test" index == file) = false := by
    decide +kernel
  refine ⟨hplain, fun index hm => ?_, ?_⟩
  · have hother := hnames _ hm
    rw [SegmentName.index?_ofIndex, Option.any_some, beq_self_eq_true] at hother
    cases hother
  cases hrun : (init [] "test" misnamed).1 with
  | error e =>
      rw [hrun] at hok
      cases hok
  | ok a =>
      obtain ⟨-, -, -, hgone⟩ := hinit a hrun
      have hgone := hgone 0 rfl
      rw [hlisted] at hgone
      refine ⟨⟨a, rfl⟩, hgone _ (List.mem_cons_self ..) (by rfl),
        hgone _ (List.mem_cons_of_mem _ (List.mem_cons_self ..)) (by rfl), ?_⟩
      exact hpruned.others 0 _ (by decide) (by decide +kernel)

end Archive

end MeteredStorage
