import MeteredStorage.Archive.Basic

namespace MeteredStorage.Archive

def visits (s : Segment) : List PlacedRecord → List (Int64 × Int64) × Except ArchiveError Unit
  | [] => ([], .ok ())
  | r :: rs =>
    match s.locationOf r.offset with
    | .error e => ([], .error e)
    | .ok l =>
      let (vs, end?) := visits s rs
      ((r.record.key, l) :: vs, end?)

def visitSegment (s : Segment) (d : Disk) : List (Int64 × Int64) × Except ArchiveError Unit :=
  let (rs, read) := s.records d
  match visits s rs with
  | (vs, .ok ()) => (vs, read)
  | stopped => stopped

def visitSegments (d : Disk) : List Segment → List (Int64 × Int64) × Except ArchiveError Unit
  | [] => ([], .ok ())
  | s :: rest =>
    match visitSegment s d with
    | (vs, .error e) => (vs, .error e)
    | (vs, .ok ()) =>
      let (ws, end?) := visitSegments d rest
      (vs ++ ws, end?)

def replay (a : Archive) (d : Disk) : List (Int64 × Int64) × Except ArchiveError Unit :=
  visitSegments d a.completed

/-- The longest run of `segments` from the front whose sizes, added to `total`, stay within `limit`. -/
def takeWithin (limit : Nat) : Nat → List Segment → List Segment
  | _, [] => []
  | total, s :: rest =>
    let total := min (total + s.size) 0xFFFFFFFFFFFFFFFF
    if total ≤ limit then s :: takeWithin limit total rest else []

def oldest (a : Archive) (limit : UInt64) : List Segment := takeWithin limit.toNat 0 a.completed

end MeteredStorage.Archive
