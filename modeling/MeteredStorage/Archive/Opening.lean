import MeteredStorage.Archive.Basic

namespace MeteredStorage.Archive

structure Found where
  segments : List Segment
  nextIndex : Nat

def findSegment (directory : Path) (found : Found) (file : String) (slot : Nat) (index : UInt32) :
    Task Host ArchiveError Found := do
  if index.toNat + 1 = 0x100000000 then throw .outOfRange
  let nextIndex := max found.nextIndex (index.toNat + 1)
  let path := Path.join directory file
  Task.ofExcept ArchiveError.disk (Disk.admitPath path)
  let content := (← get).disk.content slot
  match ← Task.ofExcept id (Segment.completeFooter? index content) with
  | some f =>
    let handle ← Host.onDisk Disk.openHandle
    Host.report (.segmentLoaded index)
    return ⟨enter found.segments ⟨index, path, slot, handle, some f⟩, nextIndex⟩
  | none =>
    Host.report (.incompleteRemoved index)
    Host.onDisk (Disk.unlink path)
    return ⟨found.segments, nextIndex⟩

def findSegments (directory : Path) (name : String) :
    List (String × Node) → Found → Task Host ArchiveError Found
  | [], found => return found
  | (file, .file slot) :: rest, found => do
    match SegmentName.index? name file with
    | some index => findSegments directory name rest (← findSegment directory found file slot index)
    | none => findSegments directory name rest found
  | (_, .directory _) :: rest, found => findSegments directory name rest found

def isCovered (segments : List Segment) (s : Segment) : Bool :=
  s.footer.any fun f => segments.any fun t => t.footer.any (·.covers f)

def removeCovered : List Segment → Task Host ArchiveError Unit
  | [] => return ()
  | s :: rest => do
    Host.report (.coveredRemoved s.index)
    Host.onDisk (Disk.unlinkIfPresent s.path)
    removeCovered rest

def init (directory : Path) (name : String) : Task Host ArchiveError Archive := do
  Host.onDisk (Disk.makeDirectories directory)
  let files ← Host.onDisk (Disk.list directory)
  let found ← findSegments directory name files ⟨[], 0⟩
  removeCovered (found.segments.filter (isCovered found.segments))
  let segments := found.segments.filter fun s => !isCovered found.segments s
  Host.onDisk (Disk.sync directory)
  return {
    directory := directory
    name := name
    segments := segments
    writer := none
    nextIndex := UInt32.ofNat found.nextIndex
    counts := ⟨segments.length, 0, 0, 0⟩ }

open Hosted

def close : ArchiveTask Unit := do
  match (← get).self.writer with
  | some w =>
    update fun a => { a with writer := none }
    report (.closedInSession w.segment.index)
  | none => pure ()
  syncDirectory

def removeFiles : List Segment → ArchiveTask Unit
  | [] => return ()
  | s :: rest => do
    onDisk (Disk.unlinkIfPresent s.path)
    removeFiles rest

def destroy : ArchiveTask Unit := do
  let a := (← get).self
  update fun a => { a with writer := none, segments := [] }
  removeFiles a.segments
  count fun c => { c with segments := 0 }
  match ← (onDisk (Disk.removeDirectory a.directory)).attempt with
  | .ok () => return ()
  | .error (.disk e) => report (.directoryKept e)
  | .error _ => return ()

end MeteredStorage.Archive
