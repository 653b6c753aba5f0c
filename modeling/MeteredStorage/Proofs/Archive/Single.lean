import MeteredStorage.Archive.Merge
import MeteredStorage.Archive.Session
import MeteredStorage.Proofs.Disk.Losing

namespace MeteredStorage

namespace Hosted

open MeteredStorage.Task

variable {α β ε : Type}

def disk (s : Hosted α) : Disk := s.host.disk

theorem quiet_update (f : α → α) : Quiet disk (update f : Task (Hosted α) ε Unit) := fun _ => rfl

theorem quiet_report (event : Event) : Quiet disk (report event : Task (Hosted α) ε Unit) :=
  fun _ => rfl

theorem quiet_onDisk {task : DiskTask β} (h : Quiet id task) :
    Quiet disk (onDisk task : Task (Hosted α) ArchiveError β) := by
  intro s
  have hs := h s.host.disk
  rw [onDisk_run]
  split <;> simp_all [disk]

theorem brief_onDisk {task : DiskTask β} (h : Brief id task) :
    Brief disk (onDisk task : Task (Hosted α) ArchiveError β) := by
  intro s
  have hs := h s.host.disk
  rw [onDisk_run]
  split <;> simp_all [disk]

end Hosted

namespace Archive

open MeteredStorage.Task Hosted

theorem quiet_count (f : ArchiveCounts → ArchiveCounts) : Quiet disk (count f) := quiet_update _

theorem quiet_syncDirectory : Quiet disk syncDirectory :=
  quiet_get.bind fun _ => quiet_onDisk (Disk.quiet_sync _)

theorem brief_createSegment : Brief disk createSegment := by
  refine quiet_get.bind_brief fun _ => (quiet_update _).bind_brief fun _ => ?_
  split
  · exact (quiet_throw _).brief
  · refine (brief_onDisk (Disk.brief_createFile _)).bind fun created => ?_
    exact (quiet_update _).bind fun _ => (quiet_count _).bind fun _ => quiet_pure _

theorem brief_removeSegment (s : Segment) : Brief disk (removeSegment s) := by
  refine quiet_get.bind_brief fun _ => ?_
  have hunlink : Brief disk (onDisk (Disk.unlinkIfPresent s.path) : ArchiveTask Unit) :=
    brief_onDisk (Disk.brief_unlinkIfPresent s.path)
  dsimp only
  split
  · exact (quiet_update _).bind_brief fun _ => (quiet_count _).bind_brief fun _ => hunlink
  · exact hunlink

theorem brief_append (s : Segment) (offset : Nat) (r : Record) :
    Brief disk (onDisk (s.append offset r) : ArchiveTask Unit) :=
  brief_onDisk (Disk.brief_perform _)

theorem brief_finishSegment (s : Segment) (f : Footer) : Brief disk (finishSegment s f) :=
  (brief_onDisk (Disk.brief_perform _)).bind fun _ => quiet_update _

theorem brief_startWriting : Brief disk startWriting := by
  refine quiet_get.bind_brief fun _ => ?_
  split
  · exact (quiet_throw _).brief
  · exact brief_createSegment.bind fun _ => (quiet_report _).bind fun _ => quiet_update _

theorem brief_store (r : Record) : Brief disk (store r) := by
  refine quiet_get.bind_brief fun _ => ?_
  split
  · exact (quiet_throw _).brief
  · dsimp only
    split
    · exact (quiet_throw _).brief
    · refine (quiet_ofExcept _ _).bind_brief fun location => ?_
      split
      · exact (quiet_throw _).brief
      · refine (brief_append _ _ _).bind fun _ => (quiet_update _).bind fun _ => ?_
        exact (quiet_count _).bind fun _ => (quiet_report _).bind fun _ => quiet_pure _

theorem brief_endWriting (minKey maxKey : Int64) : Brief disk (endWriting minKey maxKey) := by
  refine quiet_get.bind_brief fun _ => ?_
  split
  · exact (quiet_throw _).brief
  · refine (quiet_update _).bind_brief fun _ => quiet_get.bind_brief fun _ => ?_
    exact (brief_finishSegment _ _).bind fun _ => quiet_syncDirectory.bind fun _ => quiet_report _

theorem quiet_concludeMerge (m : Merge) : Quiet disk (concludeMerge m) :=
  quiet_syncDirectory.bind fun _ => (quiet_count _).bind fun _ => quiet_report _

end Archive

end MeteredStorage
