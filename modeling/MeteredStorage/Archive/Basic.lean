import MeteredStorage.Disk.Operations
import MeteredStorage.Host
import MeteredStorage.Segment.Basic
import MeteredStorage.Segment.Name

namespace MeteredStorage

structure Writer where
  segment : Segment
  offset : Nat
  items : Nat

structure ArchiveCounts where
  segments : Int
  reads : Nat
  writes : Nat
  merges : Nat

structure Archive where
  directory : Path
  name : String
  /-- The registered segments by rising index. -/
  segments : List Segment
  writer : Option Writer
  nextIndex : UInt32
  counts : ArchiveCounts

abbrev ArchiveTask (α : Type) := Task (Hosted Archive) ArchiveError α

namespace ArchiveCounts

def samples (c : ArchiveCounts) : List String :=
  [s!"files {c.segments}", s!"reads_total {c.reads}", s!"writes_total {c.writes}",
    s!"merges_total {c.merges}"]

end ArchiveCounts

namespace Archive

open Hosted

def pathOf (a : Archive) (index : UInt32) : Path :=
  Path.join a.directory (SegmentName.ofIndex a.name index)

def segment? (a : Archive) (index : UInt32) : Option Segment :=
  a.segments.find? (·.index == index)

def without (segments : List Segment) (index : UInt32) : List Segment :=
  segments.filter (·.index != index)

def enter (segments : List Segment) (s : Segment) : List Segment :=
  Segment.insertBy (fun s t => s.index ≤ t.index) s (without segments s.index)

def completed (a : Archive) : List Segment :=
  Segment.sortByAge (a.segments.filter Segment.isComplete)

def count (f : ArchiveCounts → ArchiveCounts) : ArchiveTask Unit :=
  update fun a => { a with counts := f a.counts }

/--
Takes the next index, also if no segment comes of it, and creates and enters an empty segment.
-/
def createSegment : ArchiveTask Segment := do
  let a := (← get).self
  let index := a.nextIndex
  update fun a => { a with nextIndex := index + 1 }
  if Location.maxSegments ≤ index.toNat then throw .indicesExhausted
  let path := a.pathOf index
  let (slot, handle) ← onDisk (Disk.createFile path)
  let s : Segment := ⟨index, path, slot, handle, none⟩
  update fun a => { a with segments := enter a.segments s }
  count fun c => { c with segments := c.segments + 1 }
  return s

def removeSegment (s : Segment) : ArchiveTask Unit := do
  if ((← get).self.segment? s.index).isSome then
    update fun a => { a with segments := without a.segments s.index }
    count fun c => { c with segments := c.segments - 1 }
  onDisk (Disk.unlinkIfPresent s.path)

def finishSegment (s : Segment) (f : Footer) : ArchiveTask Unit := do
  onDisk (s.finish f)
  update fun a => { a with
    segments := a.segments.map fun t => if t.handle = s.handle then { t with footer := some f } else t }

def syncDirectory : ArchiveTask Unit := do
  onDisk (Disk.sync (← get).self.directory)

end Archive

end MeteredStorage
