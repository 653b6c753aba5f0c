import MeteredStorage.Archive.Basic

namespace MeteredStorage.Archive

open Hosted

def startWriting : ArchiveTask Unit := do
  if (← get).self.writer.isSome then throw .sessionActive
  let s ← createSegment
  report (.sessionStarted s.index)
  update fun a => { a with writer := some ⟨s, 0, 0⟩ }

def store (r : Record) : ArchiveTask Int64 := do
  match (← get).self.writer with
  | none => throw .noSession
  | some w =>
    if Location.maxOffset < w.offset + r.size then throw (.segmentFull w.segment.index)
    let location ← Task.ofExcept id (w.segment.locationOf w.offset)
    if 0x100000000 ≤ r.data.length then throw (.recordTooLarge r.data.length)
    onDisk (w.segment.append w.offset r)
    update fun a => { a with writer := some ⟨w.segment, w.offset + r.size, w.items + 1⟩ }
    count fun c => { c with writes := c.writes + 1 }
    report (.recordStored r.key location)
    return location

def sessionFooter (w : Writer) (created : UInt64) (minKey maxKey : Int64) : Footer where
  index := w.segment.index
  generation := w.segment.index.toUInt64
  mergedFrom := w.segment.index.toUInt64
  createdMillis := created
  minKey := minKey
  maxKey := maxKey
  items := UInt64.ofNat w.items
  dataSize := UInt64.ofNat w.offset
  merged := false

/-- Completes the session. A later merge may drop the records of keys outside the given range. -/
def endWriting (minKey maxKey : Int64) : ArchiveTask Unit := do
  match (← get).self.writer with
  | none => throw .noSession
  | some w =>
    update fun a => { a with writer := none }
    let f := sessionFooter w (← get).host.clock minKey maxKey
    finishSegment w.segment f
    syncDirectory
    report (.sessionCompleted w.segment.index w.items f.size)

def fetch (a : Archive) (d : Disk) (location : Int64) (part : Part) (room : Nat) :
    Except ArchiveError Bytes :=
  match Location.segment? location with
  | none => .error (.invalidLocation location)
  | some index =>
    match a.segment? index with
    | none => .error (.segmentMissing index)
    | some s => s.read d (Location.offset location) part room

def readInto (location : Int64) (part : Part) (buffer : Bytes) : ArchiveTask (Nat × Bytes) := do
  let s ← get
  let bytes ← Task.ofExcept id (s.self.fetch s.host.disk location part buffer.length)
  count fun c => { c with reads := c.reads + 1 }
  return (bytes.length, Bytes.overlay 0 bytes buffer)

end MeteredStorage.Archive
