import MeteredStorage.Proofs.Archive.Undoing
import MeteredStorage.Proofs.PagedMap.Tending

namespace MeteredStorage

open Archive (Attached Undone)

variable {K : Type}

/-- A merge of a map that ends before there is a move to publish has failed in its archive. -/
theorem MapMerge.start_error {limit : UInt64} {s t : MapState K} {e : MapError}
    (h : start limit s = (.done (.error e), t)) :
    ∃ e' t', e = .archive e' ∧
      Archive.prepareMerge (s.self.archive.oldest limit)
        (s.report (.mapMergeStarted s.self.name (s.self.archive.oldest limit).length)).archived =
          (.error e', t') ∧ t = s.withArchive t' := by
  unfold start at h
  dsimp only at h
  split at h
  · cases h
  · unfold prepare at h
    rcases hrun : Archive.prepareMerge (s.self.archive.oldest limit)
      (s.report (.mapMergeStarted s.self.name (s.self.archive.oldest limit).length)).archived with
      ⟨r, t'⟩
    rw [MapState.inArchive_run hrun] at h
    split at h
    · rename_i heq
      cases heq
      cases h
      exact ⟨_, t', rfl, rfl, rfl⟩
    · cases h
    · cases h

/--
A merge of an archive that fails whatever it is to tell the moves to, and a merge of a map that fails
before it publishes one, change nothing but the number of the next index, whatever has been done to
the archive or to the map before and whatever has become of the bytes in its files. A number out of
range stops the program instead, which no merge survives.
-/
theorem failed_merge_undone (K : Type) [DecidableEq K] [FixedKey K] (directory : Path) (name : String) :
    (∀ (s t : Hosted Archive) (files : List Segment) (e : ArchiveError),
      Archive.Tended directory name s.host (some s.self) →
      (∀ publish, Archive.merge publish files s = (.error e, t)) → e ≠ .outOfRange → Undone s t) ∧
    ∀ (s t : MapState K) (limit : UInt64) (e : MapError),
      PagedMap.Tended K directory name s.host (some s.self) →
      MapMerge.start limit s = (.done (.error e), t) → e ≠ .archive .outOfRange →
      PagedMap.merge limit s = (.error e, t) ∧ t.self = { s.self with archive := t.self.archive } ∧
        Undone s.archived t.archived := by
  have hundone {n : Nat} {s t : Hosted Archive} {files : List Segment} {e : ArchiveError}
      (h : Attached directory name n s) (hrun : Archive.prepareMerge files s = (.error e, t))
      (he : e ≠ .outOfRange) : Undone s t := by
    rcases (h.prepareMerge_undone files).run rfl hrun with ⟨_, ⟨⟩, -⟩ | ⟨_, ⟨⟩, ht⟩
    exact ht he
  refine ⟨fun s t files e hs hrun he => ?_, fun s t limit e hs hstart he => ?_⟩
  · obtain ⟨n, -, hattached⟩ := hs.attached
    exact hundone (hattached _ rfl) (Archive.prepareMerge_of_merge hrun) he
  · obtain ⟨n, -, hanchored⟩ := hs.anchored
    refine ⟨by rw [PagedMap.merge, hstart], ?_⟩
    obtain ⟨e', t', rfl, hrun, rfl⟩ := MapMerge.start_error hstart
    have ht := hundone ((hanchored _ rfl).alike (.report s _)) hrun fun h => he (congrArg _ h)
    exact ⟨rfl, ⟨ht.archive, ht.next, ht.directories, ht.content, ht.fetch, ht.replay, ht.oldest⟩⟩

def Disk.torn (d : Disk) : Disk := { d with contents := d.contents.map (Bytes.overlay 8 [255]) }

theorem Disk.scrambled_torn (d : Disk) : d.Scrambled d.torn := ⟨rfl, by simp [torn]⟩

def Archive.tornMerge (s : Hosted Archive) : Bool :=
  match prepareMerge s.self.completed (s.withDisk s.host.disk.torn) with
  | (.error (.recordCorrupt _), t) => t.self.nextIndex == s.self.nextIndex + 1
  | _ => false

def PagedMap.tornMerge (s : MapState UInt64) : Bool :=
  match MapMerge.start 0x100000 (s.withArchive (s.archived.withDisk s.host.disk.torn)) with
  | (.done (.error (.archive (.recordCorrupt _))), t) =>
    t.self.archive.nextIndex == s.self.archive.nextIndex + 1
  | _ => false

/-- A record that is found damaged after the output was made stops a merge of two sessions. -/
theorem failed_merge_undone_torn :
    (∃ (s t : Hosted Archive) (location : Int64),
      (∀ publish, Archive.merge publish s.self.completed s = (.error (.recordCorrupt location), t)) ∧
      t.self.nextIndex = s.self.nextIndex + 1 ∧ Undone s t) ∧
    ∃ (s t : MapState UInt64) (location : Int64),
      PagedMap.merge 0x100000 s = (.error (.archive (.recordCorrupt location)), t) ∧
      t.self.archive.nextIndex = s.self.archive.nextIndex + 1 ∧ t.self.table = s.self.table ∧
      Undone s.archived t.archived := by
  obtain ⟨harchive, hmap⟩ := failed_merge_undone UInt64 [] "x"
  constructor
  · have hcheck : (Archive.scenario "x" [.start, .store ⟨7, [1]⟩, .finish 0 10, .start,
        .store ⟨8, [2]⟩, .finish 0 10]).any Archive.tornMerge := by
      decide +kernel
    obtain ⟨s, hs, hgo⟩ := (Option.any_eq_true ..).mp hcheck
    unfold Archive.tornMerge at hgo
    have ht := (Archive.run_of_scenario hs).tended.damaged s.host.disk.scrambled_torn
    split at hgo
    · rename_i location t hrun
      have hmerge (publish : List Relocation → ArchiveTask Unit) :
          Archive.merge publish s.self.completed (s.withDisk s.host.disk.torn) =
            (.error (.recordCorrupt location), t) := by
        rw [Archive.merge, Task.bind_error hrun]
      exact ⟨s.withDisk s.host.disk.torn, t, location, hmerge, eq_of_beq hgo,
        harchive _ t _ _ ht hmerge (by simp)⟩
    · cases hgo
  · have hcheck : (PagedMap.scenario UInt64 "x" 100 [.start, .put 7 1, .finish, .start, .put 8 2,
        .finish]).any PagedMap.tornMerge := by
      decide +kernel
    obtain ⟨s, hs, hgo⟩ := (Option.any_eq_true ..).mp hcheck
    unfold PagedMap.tornMerge at hgo
    have hs' : PagedMap.Tended UInt64 [] "x" s.host (some s.self) :=
      PagedMap.tended_of_scenario hs (by simp)
    have ht := hs'.damaged s.host.disk.scrambled_torn
    split at hgo
    · rename_i location t hrun
      obtain ⟨hmerge, hself, hundone⟩ :=
        hmap (s.withArchive (s.archived.withDisk s.host.disk.torn)) t _ _ ht hrun (by simp)
      exact ⟨_, t, location, hmerge, eq_of_beq hgo, by rw [hself], hundone⟩
    · cases hgo

end MeteredStorage
