import MeteredStorage.Archive.Basic

namespace MeteredStorage

structure Relocation where
  key : Int64
  source : Int64
  target : Int64
  deriving DecidableEq

structure Merge where
  output : Segment
  /-- The bytes of records in the output. -/
  dataSize : Nat
  /-- Newest data first. -/
  inputs : List Segment
  moves : List Relocation

namespace Archive

open Hosted

def mergeable (a : Archive) (files : List Segment) : List Segment :=
  files.filter fun s => s.isComplete && (a.segment? s.index).any (·.handle == s.handle)

/--
The run of `completed` that consists of the given segments, oldest first. None if they leave out one
in between or name one twice.
-/
def contiguousRun? (completed inputs : List Segment) : Option (List Segment) :=
  let positions := inputs.map fun s => completed.findIdx (·.index == s.index)
  let first := positions.foldl min completed.length
  if (List.range' first inputs.length).all positions.contains then
    some ((completed.drop first).take inputs.length)
  else none

def latestOfKeys : List PlacedRecord → List PlacedRecord
  | [] => []
  | r :: rs =>
    if rs.any (·.record.key == r.record.key) then latestOfKeys rs else r :: latestOfKeys rs

/-- The records of an input that survive: in the valid range, latest, and not in a newer input. -/
def survivors (minKey maxKey : Int64) (seen : List Int64) (rs : List PlacedRecord) :
    List PlacedRecord :=
  latestOfKeys (rs.filter fun r =>
    minKey ≤ r.record.key && r.record.key ≤ maxKey && !seen.contains r.record.key)

def copyRecords (output input : Segment) :
    Nat → List PlacedRecord → ArchiveTask (List Relocation × Nat)
  | offset, [] => return ([], offset)
  | offset, r :: rs => do
    if Location.maxOffset < offset + r.record.size then throw (.segmentFull output.index)
    onDisk (output.append offset r.record)
    let source ← Task.ofExcept id (input.locationOf r.offset)
    let target ← Task.ofExcept id (output.locationOf offset)
    let (moves, finish) ← copyRecords output input (offset + r.record.size) rs
    return (⟨r.record.key, source, target⟩ :: moves, finish)

def copyLatest (output : Segment) (minKey maxKey : Int64) :
    List Int64 → Nat → List Segment → ArchiveTask (List Relocation × Nat)
  | _, offset, [] => return ([], offset)
  | seen, offset, input :: rest => do
    let (rs, read) := input.records (← get).host.disk
    Task.ofExcept id read
    let kept := survivors minKey maxKey seen rs
    let (moves, offset) ← copyRecords output input offset kept
    let (more, finish) ←
      copyLatest output minKey maxKey (kept.map (·.record.key) ++ seen) offset rest
    return (moves ++ more, finish)

def mergeFooter (newest : Footer) (mergedFrom : UInt64) (output : Segment) (created : UInt64)
    (items dataSize : Nat) : Footer where
  index := output.index
  generation := newest.generation
  mergedFrom := mergedFrom
  createdMillis := created
  minKey := newest.minKey
  maxKey := newest.maxKey
  items := UInt64.ofNat items
  dataSize := UInt64.ofNat dataSize
  merged := true

def fillOutput (output : Segment) (newest : Footer) (mergedFrom : UInt64) (inputs : List Segment) :
    ArchiveTask (List Relocation × Nat) := do
  let (moves, dataSize) ← copyLatest output newest.minKey newest.maxKey [] 0 inputs
  if !moves.isEmpty then
    finishSegment output
      (mergeFooter newest mergedFrom output (← get).host.clock moves.length dataSize)
  return (moves, dataSize)

def mergeRun (run : List Segment) (newest : Footer) : ArchiveTask Merge := do
  let mergedFrom := run.foldl (fun m s => min m ((s.footer.map Footer.mergedFrom).getD m)) newest.mergedFrom
  let output ← createSegment
  report (.mergeStarted output.index run.length newest.generation)
  match ← (fillOutput output newest mergedFrom run.reverse).attempt with
  | .error .outOfRange => throw .outOfRange
  | .error e =>
    removeSegment output
    throw e
  | .ok (moves, dataSize) =>
    if moves.isEmpty then removeSegment output else syncDirectory
    return ⟨output, dataSize, run.reverse, moves⟩

def prepareMerge (files : List Segment) : ArchiveTask (Option Merge) := do
  let a := (← get).self
  let inputs := a.mergeable files
  if inputs.isEmpty then return none
  match contiguousRun? a.completed inputs with
  | none => throw .notContiguous
  | some run =>
    match run.getLast?.bind Segment.footer with
    | none => return none
    | some newest => return some (← mergeRun run newest)

def concludeMerge (m : Merge) : ArchiveTask Unit := do
  syncDirectory
  count fun c => { c with merges := c.merges + 1 }
  report (.mergeCompleted m.output.index m.moves.length (alignToPage m.dataSize) m.inputs.length)

def removeSegments : List Segment → ArchiveTask Unit
  | [] => return ()
  | s :: rest => do
    removeSegment s
    removeSegments rest

def finishMerge (m : Merge) : ArchiveTask Unit := do
  removeSegments m.inputs
  concludeMerge m

/-- Merges the given segments; `publish` learns the moves before an input is removed. -/
def merge (publish : List Relocation → ArchiveTask Unit) (files : List Segment) : ArchiveTask Unit := do
  match ← prepareMerge files with
  | none => return ()
  | some m =>
    publish m.moves
    finishMerge m

end Archive

end MeteredStorage
