import MeteredStorage.Archive.Error

namespace MeteredStorage

inductive MapError
  | archive (error : ArchiveError)
  | disk (error : DiskError)
  | keyTooLarge (size : Nat)
  | invalidMapSize (size : UInt64)
  | pageFull (index : Int32)
  | pageMismatch (bucket : Nat) (found : Int32)
  | pageCorrupt (bucket : Nat) (count : Int32)
  | unsupportedVersion (version : Int32)
  | sessionActive
  | noSession
  deriving DecidableEq

namespace MapError

def message : MapError → String
  | archive e => "data file error: " ++ e.message
  | disk e => "io error: " ++ e.message
  | keyTooLarge n => s!"key too large: {n}"
  | invalidMapSize n => s!"invalid map size: {n.toNat}"
  | pageFull i => s!"bucket full: {i.toInt}"
  | pageMismatch bucket found => s!"bucket mismatch: expected {bucket}, found {found.toInt}"
  | pageCorrupt bucket count => s!"bucket corrupt: {bucket} has {count.toInt} entries"
  | unsupportedVersion v => s!"unsupported key version: {v.toInt}"
  | sessionActive => "write session already active"
  | noSession => "no active write session"

end MapError

end MeteredStorage
