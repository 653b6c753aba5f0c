import MeteredStorage.Proofs.Archive.Numbering
import MeteredStorage.Proofs.Archive.Reopening
import MeteredStorage.Proofs.Word

namespace MeteredStorage

open Word
open MeteredStorage.Task (Ensures Abides)

namespace Segment

def lastFooter? (index : UInt32) (content : Bytes) : Option Footer :=
  if content.length < pageSize ∨ content.length % pageSize ≠ 0 then none
  else
    match Footer.decode (content.drop (content.length - pageSize)) with
    | none => none
    | some f => if f.index ≠ index then none else some f

theorem completeFooter?_eq (index : UInt32) (content : Bytes) :
    completeFooter? index content = match lastFooter? index content with
      | none => .ok none
      | some f => match natural 64 (alignToPage f.dataSize.toNat) with
        | none => .error .outOfRange
        | some n => .ok (if n = content.length - pageSize then some f else none) := by
  simp only [completeFooter?, lastFooter?, natural]
  split
  · rfl
  cases Footer.decode (content.drop (content.length - pageSize)) with
  | none => rfl
  | some f =>
      simp only
      split
      · rfl
      by_cases hfits : alignToPage f.dataSize.toNat < 1 <<< 64
      · rw [if_neg (by omega)]
        simp only [if_pos hfits]
        split <;> rfl
      · rw [if_pos (by omega)]
        simp only [if_neg hfits]

/-- The end of the last page does not fit its word for a size within a page of the greatest one. -/
theorem natural_alignToPage_eq_none_iff (n : Nat) :
    natural 64 (alignToPage n) = none ↔ 0x10000000000000000 - pageSize < n := by
  rw [natural, alignToPage, pageSize]
  split
  · exact ⟨fun h => absurd h (Option.some_ne_none _), fun _ => by omega⟩
  · exact ⟨fun _ => by omega, fun _ => rfl⟩

end Segment

namespace ListedFile

def overflows (d : Disk) (f : ListedFile) : Bool :=
  (natural 32 (f.index.toNat + 1)).isNone ||
    (Segment.lastFooter? f.index (d.content f.slot)).any fun g =>
      (natural 64 (alignToPage g.dataSize.toNat)).isNone

theorem overflows_iff {d : Disk} {f : ListedFile} : f.overflows d = true ↔
    f.index = 0xffffffff ∨ ∃ g, Segment.lastFooter? f.index (d.content f.slot) = some g ∧
      0x10000000000000000 - pageSize < g.dataSize.toNat := by
  have hlt := f.index.toNat_lt
  have hindex : natural 32 (f.index.toNat + 1) = none ↔ f.index = 0xffffffff := by
    rw [natural, ← UInt32.toNat_inj]
    change _ ↔ _ = 0xffffffff
    split
    · exact ⟨nofun, fun _ => by omega⟩
    · exact ⟨fun _ => by omega, fun _ => rfl⟩
  simp only [overflows, Bool.or_eq_true, Option.isNone_iff_eq_none, hindex, Option.any_eq_true,
    Segment.natural_alignToPage_eq_none_iff]

theorem overflows_congr {d d' : Disk} (h : d'.contents = d.contents) (f : ListedFile) :
    f.overflows d' = f.overflows d := by
  rw [overflows, overflows, Disk.content, h]
  rfl

end ListedFile

namespace Archive

variable {directory : Path} {name : String} {host : Host} {found : Found} {f : ListedFile} {d : Disk}
  {files : List (String × Node)}

theorem index_of_not_overflows (h : f.overflows d = false) : f.index.toNat + 1 ≠ 0x100000000 := by
  intro he
  have hnone : natural 32 (f.index.toNat + 1) = none := if_neg (by omega)
  rw [ListedFile.overflows, hnone] at h
  cases h

theorem completeFooter?_of_not_overflows (h : f.overflows d = false) :
    ∃ footer, Segment.completeFooter? f.index (d.content f.slot) = .ok footer := by
  rw [ListedFile.overflows, Bool.or_eq_false_iff] at h
  rw [Segment.completeFooter?_eq]
  cases hlast : Segment.lastFooter? f.index (d.content f.slot) with
  | none => exact ⟨none, rfl⟩
  | some g =>
      have hfits := h.2
      rw [hlast, Option.any_some] at hfits
      cases hn : natural 64 (alignToPage g.dataSize.toNat) with
      | none =>
          rw [hn] at hfits
          cases hfits
      | some n =>
          simp only [hn]
          exact ⟨_, rfl⟩

/-- Each of the files can be removed by its path, and is then gone under no other name of them. -/
structure Removable (directory : Path) (fs : List ListedFile) (d : Disk) : Prop where
  slots : (fs.map ListedFile.slot).Nodup
  held : ∀ f ∈ fs, d.HasFile (Path.join directory f.name) f.slot

theorem Removable.admitted {fs : List ListedFile} (h : Removable directory (f :: fs) d) :
    Disk.admitPath (Path.join directory f.name) = .ok () :=
  (h.held f (List.mem_cons_self ..)).admitted

theorem Removable.opening {fs : List ListedFile} (h : Removable directory (f :: fs) d) :
    Removable directory fs (opening d) :=
  ⟨(List.nodup_cons.mp h.slots).2, fun g hg =>
    (h.held g (List.mem_cons_of_mem _ hg)).frame (frame_opening d) trivial⟩

theorem Removable.unlinked {fs : List ListedFile} (h : Removable directory (f :: fs) d) :
    ∃ p, Disk.unlink (Path.join directory f.name) d = (.ok (), d.changed (.unlink p)) ∧
      Removable directory fs (d.changed (.unlink p)) := by
  obtain ⟨hfresh, hslots⟩ := List.nodup_cons.mp h.slots
  obtain ⟨trail, name, ht, hm⟩ := h.held f (List.mem_cons_self ..)
  have hframe := Disk.frame_unlinked (Disk.meaning_eq_ok hm).2
  refine ⟨_, Disk.unlink_run ht hm, hslots, fun g hg => ?_⟩
  refine (h.held g (List.mem_cons_of_mem _ hg)).frame hframe fun he => hfresh ?_
  exact he ▸ List.mem_map_of_mem hg

def Searched (p : Prop) (directory : Path) (d : Disk) (fs : List ListedFile) (h : Host) : Prop :=
  h.disk.contents = d.contents ∧ (p → Removable directory fs h.disk)

def OfDisk (e : ArchiveError) : Prop := ∃ e', e = .disk e'

theorem ofDisk_onDisk {α : Type} (task : DiskTask α) (r : Prop) :
    Abides (fun _ => r) OfDisk (Host.onDisk task) := by
  intro host hr
  rw [Host.onDisk, Task.zoom]
  rcases task host.disk with ⟨_ | _, d'⟩
  · exact ⟨hr, _, rfl⟩
  · exact hr

theorem ofDisk_report (event : Event) (r : Prop) :
    Abides (fun _ => r) OfDisk (Host.report event : Task Host ArchiveError Unit) :=
  fun _ hr => hr

theorem ofDisk_removeCovered (segments : List Segment) (r : Prop) :
    Abides (fun _ => r) OfDisk (removeCovered segments) := by
  induction segments with
  | nil => exact Abides.pure _
  | cons x segments ih =>
      exact (ofDisk_report _ r).then fun _ => (ofDisk_onDisk _ r).then fun _ => ih

/-- A file of which a number overflows is neither opened nor removed. -/
theorem findSegment_overflows (directory : Path) (found : Found) (p : Prop)
    (fs : List ListedFile) (h : f.overflows d = true) :
    Ensures (Searched p directory d (f :: fs)) (fun _ _ => False)
      (fun e _ => OfDisk e ∧ ¬p ∨ e = .outOfRange)
      (findSegment directory found f.name f.slot f.index) := by
  rintro host ⟨hcontents, hremovable⟩
  rw [← ListedFile.overflows_congr hcontents] at h
  rw [findSegment]
  by_cases hindex : f.index.toNat + 1 = 0x100000000
  · rw [if_pos hindex]
    exact .inr rfl
  have hlt := f.index.toNat_lt
  have hsome : natural 32 (f.index.toNat + 1) = some (f.index.toNat + 1) := if_pos (by omega)
  rw [ListedFile.overflows, hsome, Option.isNone_some, Bool.false_or] at h
  obtain ⟨g, hlast, hover⟩ := (Option.any_eq_true ..).mp h
  have herror : Segment.completeFooter? f.index (host.disk.content f.slot) = .error .outOfRange := by
    rw [Segment.completeFooter?_eq, hlast]
    simp only
    rw [Option.isNone_iff_eq_none.mp hover]
  cases hadmit : Disk.admitPath (Path.join directory f.name) with
  | error e =>
      simp only [if_neg hindex, Task.bind_run, hadmit, Task.ofExcept_error]
      refine .inl ⟨⟨e, rfl⟩, fun hp => ?_⟩
      rw [(hremovable hp).admitted] at hadmit
      cases hadmit
  | ok _ =>
      simp only [if_neg hindex, Task.bind_run, Task.get_run, hadmit, herror, Task.ofExcept_ok,
        Task.ofExcept_error, id]
      exact .inr trivial

/-- A file of which no number overflows is opened or removed, and no content changes. -/
theorem findSegment_spared (directory : Path) (found : Found) (p : Prop)
    (fs : List ListedFile) (h : f.overflows d = false) :
    Ensures (Searched p directory d (f :: fs)) (fun _ => Searched p directory d fs)
      (fun e _ => OfDisk e ∧ ¬p) (findSegment directory found f.name f.slot f.index) := by
  rintro host ⟨hcontents, hremovable⟩
  rw [← ListedFile.overflows_congr hcontents] at h
  obtain ⟨footer, hfooter⟩ := completeFooter?_of_not_overflows h
  rw [findSegment, if_neg (index_of_not_overflows h)]
  cases hadmit : Disk.admitPath (Path.join directory f.name) with
  | error e =>
      simp only [Task.bind_run, hadmit, Task.ofExcept_error]
      refine ⟨⟨e, rfl⟩, fun hp => ?_⟩
      rw [(hremovable hp).admitted] at hadmit
      cases hadmit
  | ok _ =>
      cases footer with
      | some g =>
          have hopen : Host.onDisk Disk.openHandle host =
              (.ok host.disk.opened, { host with disk := opening host.disk }) := Host.onDisk_ok rfl
          simp only [Task.bind_run, Task.pure_run, Task.get_run, hadmit, hfooter, Task.ofExcept_ok,
            hopen, Host.report_run]
          exact ⟨hcontents, fun hp => (hremovable hp).opening⟩
      | none =>
          simp only [Task.bind_run, Task.pure_run, Task.get_run, hadmit, hfooter, Task.ofExcept_ok,
            Host.report_run, Host.onDisk, Task.zoom]
          rcases Disk.unlink_cases (Path.join directory f.name) host.disk with
            ⟨e, hrun⟩ | ⟨trail, last, slot, -, -, hrun⟩
          · simp only [hrun]
            refine ⟨⟨e, rfl⟩, fun hp => ?_⟩
            obtain ⟨place, hremoved, -⟩ := (hremovable hp).unlinked
            rw [hremoved] at hrun
            cases hrun
          · simp only [hrun]
            refine ⟨hcontents, fun hp => ?_⟩
            obtain ⟨place, hremoved, hrest⟩ := (hremovable hp).unlinked
            rw [hremoved] at hrun
            exact (Prod.mk.inj hrun).2 ▸ hrest

/-- The search ends at the first file of which a number overflows, if it gets there. -/
theorem findSegments_overflows {p : Prop} (found : Found) :
    Ensures (Searched p directory d (ListedFile.all name files))
      (fun _ _ => ∀ f ∈ ListedFile.all name files, f.overflows d = false)
      (fun e _ => OfDisk e ∧ ¬p ∨
        e = .outOfRange ∧ ∃ f ∈ ListedFile.all name files, f.overflows d = true)
      (findSegments directory name files found) := by
  -- `p` stays the same from file to file: what is removed leaves the others where they are.
  induction files generalizing found with
  | nil => exact Ensures.pure fun _ _ => nofun
  | cons e files ih =>
      obtain ⟨file, node⟩ := e
      cases node with
      | directory number => exact ih found
      | file slot =>
          unfold findSegments
          cases hi : SegmentName.index? name file with
          | none =>
              rw [ListedFile.all_cons_other hi]
              exact ih found
          | some index =>
              rw [ListedFile.all_cons_file hi]
              cases hover : ListedFile.overflows d ⟨file, slot, index⟩ with
              | true =>
                  -- The search ends here, so nothing is asked of the files after this one.
                  have hlast := findSegment_overflows directory found p
                    (ListedFile.all name files) hover
                  refine (hlast.mono (fun _ hs => hs) (fun _ _ hs => hs) fun e _ he => ?_).bind
                    fun _ _ hs => hs.elim
                  exact he.imp id fun he => ⟨he, _, List.mem_cons_self .., hover⟩
              | false =>
                  have hfirst := findSegment_spared directory found p
                    (ListedFile.all name files) hover
                  refine (hfirst.mono (fun _ hs => hs) (fun _ _ hs => hs) fun _ _ he => .inl he).bind
                    fun found' => (ih found').mono (fun _ hs => hs) (fun _ _ hs f hf => ?_) fun e _ he => ?_
                  · rcases List.mem_cons.mp hf with rfl | hf
                    · exact hover
                    · exact hs f hf
                  · rcases he with he | ⟨he, f, hf, hover'⟩
                    · exact .inl he
                    · exact .inr ⟨he, f, List.mem_cons_of_mem _ hf, hover'⟩

theorem ensures_onDisk_run {α : Type} {task : DiskTask α} {a : α} {d' : Disk}
    {E : ArchiveError → Host → Prop} (h : task d = (.ok a, d')) :
    Ensures (fun h => h.disk = d) (fun b h => b = a ∧ h.disk = d') E (Host.onDisk task) := by
  rintro host rfl
  rw [Host.onDisk_ok h]
  exact ⟨rfl, rfl⟩

theorem init_listed_overflows (name : String)
    (hlist : (do Disk.makeDirectories directory; Disk.list directory : DiskTask _) host.disk =
      (.ok files, d)) :
    Ensures (fun h => h.disk = host.disk)
      (fun _ _ => ∀ f ∈ ListedFile.all name files, f.overflows d = false)
      (fun e _ => OfDisk e ∧ (Removable directory (ListedFile.all name files) d →
          ∀ f ∈ ListedFile.all name files, f.overflows d = false) ∨
        e = .outOfRange ∧ ∃ f ∈ ListedFile.all name files, f.overflows d = true)
      (init directory name) := by
  obtain ⟨made, d', hmake, hlist⟩ := Task.of_bind_ok hlist
  refine (ensures_onDisk_run hmake).bind fun _ => ?_
  refine Ensures.bind (Q := fun listed h => listed = files ∧ h.disk = d)
    (Ensures.mono (ensures_onDisk_run hlist) (fun _ hs => hs.2) (fun _ _ hs => hs) fun _ _ he => he)
    fun listed => ?_
  rintro host' ⟨rfl, hdisk⟩
  have hsearch : Searched (Removable directory (ListedFile.all name listed) d) directory d
      (ListedFile.all name listed) host' := ⟨congrArg _ hdisk, fun hp => hdisk ▸ hp⟩
  refine Ensures.bind ((findSegments_overflows ⟨[], 0⟩).mono (fun _ hs => hs)
    (fun _ _ hs => hs) fun e _ he => ?_) (fun found => ?_) host' hsearch
  · rcases he with ⟨he, hp⟩ | he
    · exact .inl ⟨he, fun hp' => absurd hp' hp⟩
    · exact .inr he
  · exact Ensures.mono ((ofDisk_removeCovered _ _).then fun _ => (ofDisk_onDisk _ _).then fun _ =>
      Abides.pure _) (fun _ hs => hs) (fun _ _ hs => hs) fun _ _ he => .inl ⟨he.2, fun _ => he.1⟩

/--
Whatever the directory holds, opening an archive ends with the archive, with an error of the disk, or
with a number that does not fit its word. The last is so only if a number of one of the files of the
archive overflows. If there is such a file there is no archive, and it is so if the files that are
found before it can be removed.
-/
theorem init_overflows (directory : Path) (name : String) (host : Host) :
    match (do Disk.makeDirectories directory; Disk.list directory : DiskTask _) host.disk with
    | (.error e, _) => (init directory name host).1 = .error (.disk e)
    | (.ok files, d) =>
      (∀ e, (init directory name host).1 = .error e → OfDisk e ∨
        e = .outOfRange ∧ ∃ f ∈ ListedFile.all name files, f.overflows d = true) ∧
      ((∃ f ∈ ListedFile.all name files, f.overflows d = true) →
        (∀ a, (init directory name host).1 ≠ .ok a) ∧
        (Removable directory (ListedFile.all name files) d →
          (init directory name host).1 = .error .outOfRange)) := by
  split
  · rename_i e d hlist
    rw [init, Task.bind_run]
    rcases Task.bind_eq hlist with ⟨_, d', hmake, hlist⟩ | ⟨e', hmake, he⟩
    · rw [Host.onDisk_ok hmake]
      simp only [Task.bind_run, Host.onDisk, Task.zoom, hlist]
    · cases he
      simp only [Host.onDisk, Task.zoom, hmake]
  · rename_i files d hlist
    have hinit := init_listed_overflows name hlist host rfl
    rcases hrun : init directory name host with ⟨e | a, host'⟩
    · rw [hrun] at hinit
      refine ⟨fun e' he => ?_, fun hany => ⟨fun a ha => ?_, fun hremovable => ?_⟩⟩
      · cases he
        exact hinit.imp And.left id
      · cases ha
      · obtain ⟨f, hf, hover⟩ := hany
        rcases hinit with ⟨-, hnone⟩ | ⟨rfl, -⟩
        · rw [hnone hremovable f hf] at hover
          cases hover
        · rfl
    · rw [hrun] at hinit
      refine ⟨fun e he => (by cases he), fun hany => ?_⟩
      obtain ⟨f, hf, hover⟩ := hany
      rw [hinit f hf] at hover
      cases hover

/-- A file that was never completed, of the last index: it could be removed, but nothing is opened. -/
theorem init_overflows_last_index :
    let host := strayed "x_4294967295.dat"
    ∃ files, (do Disk.makeDirectories []; Disk.list [] : DiskTask _) host.disk = (.ok files, host.disk) ∧
      (∃ f ∈ ListedFile.all "x" files, f.overflows host.disk = true) ∧
      Removable [] (ListedFile.all "x" files) host.disk ∧ (init [] "x" host).1 = .error .outOfRange := by
  intro host
  have hlist : (do Disk.makeDirectories []; Disk.list [] : DiskTask _) host.disk =
      (.ok [("x_4294967295.dat", .file 0)], host.disk) := rfl
  have hall : ListedFile.all "x" [("x_4294967295.dat", .file 0)] =
      [⟨"x_4294967295.dat", 0, 4294967295⟩] := by decide +kernel
  have hinit := init_overflows [] "x" host
  rw [hlist] at hinit
  simp only [hall] at hinit
  have hover : ListedFile.overflows host.disk ⟨"x_4294967295.dat", 0, 4294967295⟩ = true := by
    decide +kernel
  have hremovable : Removable [] [⟨"x_4294967295.dat", 0, 4294967295⟩] host.disk := by
    refine ⟨by decide, fun f hf => ?_⟩
    rw [List.mem_singleton.mp hf]
    exact ⟨[], "x_4294967295.dat", by rfl, by rfl⟩
  refine ⟨_, hlist, ?_⟩
  rw [hall]
  have hmem := List.mem_singleton.mpr (rfl : (⟨"x_4294967295.dat", 0, 4294967295⟩ : ListedFile) = _)
  exact ⟨⟨_, hmem, hover⟩, hremovable, (hinit.2 ⟨_, hmem, hover⟩).2 hremovable⟩

end Archive

end MeteredStorage
