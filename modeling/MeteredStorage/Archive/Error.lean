import MeteredStorage.Disk.Error

namespace MeteredStorage

inductive ArchiveError
  | disk (error : DiskError)
  | invalidLocation (location : Int64)
  | segmentMissing (index : UInt32)
  | recordCorrupt (location : Int64)
  | bufferTooSmall (needed got : Nat)
  | recordTooLarge (length : Nat)
  | segmentFull (index : UInt32)
  | indicesExhausted
  | sessionActive
  | noSession
  | notContiguous
  /-- A number has left the range in which the archive can go on. -/
  | outOfRange
  deriving DecidableEq

namespace ArchiveError

def message : ArchiveError → String
  | disk e => "io error: " ++ e.message
  | invalidLocation l => s!"invalid location: {l.toInt}"
  | segmentMissing i => s!"file missing: {i.toNat}"
  | recordCorrupt l => s!"record corrupt at location: {l.toInt}"
  | bufferTooSmall needed got => s!"buffer too small: needed {needed}, got {got}"
  | recordTooLarge n => s!"record too large: {n}"
  | segmentFull i => s!"file full: {i.toNat}"
  | indicesExhausted => "file index exhausted"
  | sessionActive => "write session already active"
  | noSession => "no active write session"
  | notContiguous => "files to merge are not a contiguous run of completed files"
  | outOfRange => "number out of range"

def kind : ArchiveError → String
  | disk _ => "Io"
  | invalidLocation _ => "InvalidLocation"
  | segmentMissing _ => "FileMissing"
  | recordCorrupt _ => "RecordCorrupt"
  | bufferTooSmall .. => "BufferTooSmall"
  | recordTooLarge _ => "RecordTooLarge"
  | segmentFull _ => "FileFull"
  | indicesExhausted => "FileIndexExhausted"
  | sessionActive => "WriteSessionActive"
  | noSession => "NoWriteSession"
  | notContiguous => "NonContiguousMerge"
  | outOfRange => "OutOfRange"

def details : ArchiveError → String
  | disk e => "Io(" ++ e.details ++ ")"
  | invalidLocation l => s!"InvalidLocation({l.toInt})"
  | segmentMissing i => s!"FileMissing({i.toNat})"
  | recordCorrupt l => s!"RecordCorrupt({l.toInt})"
  | bufferTooSmall needed got => s!"BufferTooSmall({needed}, {got})"
  | recordTooLarge n => s!"RecordTooLarge({n})"
  | segmentFull i => s!"FileFull({i.toNat})"
  | e => e.kind

end ArchiveError

end MeteredStorage
