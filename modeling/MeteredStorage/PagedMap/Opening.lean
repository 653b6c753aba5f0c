import MeteredStorage.Archive.Opening
import MeteredStorage.Archive.Replay
import MeteredStorage.PagedMap.Basic

namespace MeteredStorage.PagedMap

variable {K : Type}

def bucket? (d : Dimensions) (key : Int64) : Option Nat :=
  if 0 ≤ key.toInt ∧ key.toInt < d.buckets then some key.toInt.toNat else none

def rebuild (d : Dimensions) : List (Int64 × Int64) → PageTable → Nat → PageTable × Nat
  | [], table, ignored => (table, ignored)
  | (key, location) :: rest, table, ignored =>
    match bucket? d key with
    | some bucket => rebuild d rest (table.set bucket location) ignored
    | none => rebuild d rest table (ignored + 1)

def dimensionsFor (K : Type) [FixedKey K] (mapSize : UInt64) : Except MapError Dimensions := do
  Dimensions.ofMapSize (← PageForm.ofKeySize (FixedKey.size K)) mapSize

def ofArchive (K : Type) [FixedKey K] (directory : Path) (name : String) (mapSize : UInt64)
    (archive : Archive) : Task Host MapError (PagedMap K) := do
  let d ← Task.ofExcept id (dimensionsFor K mapSize)
  Task.zoom Host.disk (fun d h => { h with disk := d }) MapError.disk (Disk.makeDirectories directory)
  let (visits, read) := archive.replay (← get).disk
  Task.ofExcept MapError.archive read
  let (table, ignored) := rebuild d visits .empty 0
  if 0 < ignored then Host.report (.recordsIgnored ignored d.buckets)
  Host.report (.mapOpened name table.stored d.buckets d.form.perPage)
  return {
    name := name
    dimensions := d
    table := table
    archive := archive
    busy := false
    changes := none
    counts := {} }

def init (K : Type) [FixedKey K] (directory : Path) (name : String) (mapSize : UInt64) :
    Task Host MapError (PagedMap K) := do
  let archive ← Task.zoom id (fun h _ => h) MapError.archive (Archive.init directory name)
  ofArchive K directory name mapSize archive

def close : MapTask K Unit := do
  let m := (← get).self
  if m.changes.isSome then modify (·.report (.mapClosedInSession m.name))
  onArchive Archive.close

def destroy : MapTask K Unit := onArchive Archive.destroy

end MeteredStorage.PagedMap
