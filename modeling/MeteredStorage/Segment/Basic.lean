import MeteredStorage.Archive.Error
import MeteredStorage.Disk.Route
import MeteredStorage.Segment.Footer
import MeteredStorage.Segment.Location
import MeteredStorage.Segment.Record

namespace MeteredStorage

inductive Part
  | key
  | data
  | both
  deriving DecidableEq

structure Segment where
  index : UInt32
  path : Path
  /-- The content that the open file leads to. -/
  slot : Nat
  /-- Tells two openings of one file apart. -/
  handle : Nat
  footer : Option Footer
  deriving DecidableEq

namespace Segment

def isComplete (s : Segment) : Bool := s.footer.isSome

def size (s : Segment) : Nat := (s.footer.map Footer.size).getD 0

/-- The order in which the data of segments is applied; unfinished ones come last. -/
def before (s t : Segment) : Bool :=
  match s.footer, t.footer with
  | some f, some g => f.before g
  | some _, none => true
  | none, some _ => false
  | none, none => s.index < t.index

def completeFooter? (index : UInt32) (content : Bytes) : Except ArchiveError (Option Footer) :=
  let length := content.length
  if length < pageSize ∨ length % pageSize ≠ 0 then .ok none
  else
    match Footer.decode (content.drop (length - pageSize)) with
    | none => .ok none
    | some f =>
      if f.index ≠ index then .ok none
      else if 0x10000000000000000 ≤ alignToPage f.dataSize.toNat then .error .outOfRange
      else if alignToPage f.dataSize.toNat = length - pageSize then .ok (some f)
      else .ok none

def locationOf (s : Segment) (offset : Nat) : Except ArchiveError Int64 :=
  match Location.encode? s.index offset with
  | some l => .ok l
  | none => .error .outOfRange

def corrupt (s : Segment) (offset : Nat) : ArchiveError :=
  match s.locationOf offset with
  | .ok l => .recordCorrupt l
  | .error e => e

def partBytes (part : Part) (keyBytes data : Bytes) : Bytes :=
  match part with
  | .key => keyBytes
  | .data => data
  | .both => keyBytes ++ data

def partSize (part : Part) (length : Nat) : Nat :=
  match part with
  | .key => 8
  | .data => length
  | .both => 8 + length

/--
Reads a part of the record at `offset` for a reader with `room` bytes. In a completed segment the
record must lie in the data area.
-/
def read (s : Segment) (d : Disk) (offset : Nat) (part : Part) (room : Nat) :
    Except ArchiveError Bytes := do
  match Bytes.split? Record.headerSize ((d.content s.slot).drop offset) with
  | none => .error (s.corrupt offset)
  | some (header, rest) =>
    let length := (Record.ofHeader header).2
    if s.footer.any fun f => f.dataSize.toNat < offset + Record.headerSize + length then
      .error (s.corrupt offset)
    else if room < partSize part length then
      .error (.bufferTooSmall (partSize part length) room)
    else if part = .key then .ok (header.take 8)
    else
      match Bytes.split? length rest with
      | none => .error (s.corrupt offset)
      | some (data, _) => .ok (partBytes part (header.take 8) data)

def dataArea (s : Segment) (d : Disk) (f : Footer) : Except ArchiveError Bytes :=
  match d.find s.path with
  | .error e => .error (.disk e)
  | .ok none => .error (.disk .notFound)
  | .ok (some (.directory _)) => .ok []
  | .ok (some (.file slot)) => .ok ((d.content slot).take f.dataSize.toNat)

def records (s : Segment) (d : Disk) : List PlacedRecord × Except ArchiveError Unit :=
  match s.footer with
  | none => ([], .ok ())
  | some f =>
    match s.dataArea d f with
    | .error e => ([], .error e)
    | .ok bytes =>
      match Record.scan f.items.toNat 0 bytes with
      | (rs, none) => (rs, .ok ())
      | (rs, some offset) => (rs, .error (s.corrupt offset))

def append (s : Segment) (offset : Nat) (r : Record) : DiskTask Unit :=
  Disk.perform (.write s.slot offset r.encode)

def finish (s : Segment) (f : Footer) : DiskTask Unit :=
  Disk.perform (.finish s.slot (alignToPage f.dataSize.toNat) f.encode)

def insertBy (le : Segment → Segment → Bool) (s : Segment) : List Segment → List Segment
  | [] => [s]
  | t :: ts => if le s t then s :: t :: ts else t :: insertBy le s ts

def sortByAge (segments : List Segment) : List Segment :=
  segments.foldr (insertBy before) []

end Segment

end MeteredStorage
