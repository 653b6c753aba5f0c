import MeteredStorage.Archive.Basic
import MeteredStorage.PagedMap.Page
import MeteredStorage.PagedMap.PageTable

namespace MeteredStorage

abbrev ChangeSet (K : Type) := List (Nat × List (K × Int64))

namespace ChangeSet

variable {K : Type} [DecidableEq K]

def setValue (key : K) (value : Int64) : List (K × Int64) → List (K × Int64)
  | [] => [(key, value)]
  | (k, v) :: rest => if k = key then (k, value) :: rest else (k, v) :: setValue key value rest

def insert (bucket : Nat) (key : K) (value : Int64) : ChangeSet K → ChangeSet K
  | [] => [(bucket, [(key, value)])]
  | (b, changes) :: rest =>
    if b = bucket then (b, setValue key value changes) :: rest
    else (b, changes) :: insert bucket key value rest

end ChangeSet

structure MapCounts where
  gets : Nat := 0
  puts : Nat := 0
  written : Nat := 0
  merges : Nat := 0

def MapCounts.samples (c : MapCounts) : List String :=
  [s!"gets_total {c.gets}", s!"puts_total {c.puts}", s!"buckets_written_total {c.written}",
    s!"merges_total {c.merges}"]

def registrySamples (map : Option MapCounts) (archive : Option ArchiveCounts) : List String :=
  (map.map MapCounts.samples).getD [] ++
    ((archive.map ArchiveCounts.samples).getD []).map ("files_" ++ ·)

structure PagedMap (K : Type) where
  name : String
  dimensions : Dimensions
  table : PageTable
  archive : Archive
  /-- A session is open or being written. -/
  busy : Bool
  /-- The changes of the open session. -/
  changes : Option (ChangeSet K)
  counts : MapCounts

abbrev MapState (K : Type) := Hosted (PagedMap K)

abbrev MapTask (K α : Type) := Task (MapState K) MapError α

namespace MapState

variable {K α : Type}

def update (s : MapState K) (f : PagedMap K → PagedMap K) : MapState K := { s with self := f s.self }

def count (s : MapState K) (f : MapCounts → MapCounts) : MapState K :=
  s.update fun m => { m with counts := f m.counts }

def report (s : MapState K) (event : Event) : MapState K :=
  { s with host := { s.host with events := event :: s.host.events } }

def inArchive (s : MapState K) (task : ArchiveTask α) : Except ArchiveError α × MapState K :=
  let (r, t) := task ⟨s.self.archive, s.host⟩
  (r, { self := { s.self with archive := t.self }, host := t.host })

theorem table_inArchive (s : MapState K) (task : ArchiveTask α) :
    (s.inArchive task).2.self.table = s.self.table := rfl

end MapState

namespace PagedMap

variable {K : Type}

def onArchive {α : Type} (task : ArchiveTask α) : MapTask K α := fun s =>
  match s.inArchive task with
  | (.ok a, s) => (.ok a, s)
  | (.error e, s) => (.error (.archive e), s)

def place [FixedKey K] (m : PagedMap K) (key : K) : Int32 × Nat :=
  let hash := FixedKey.spread (FixedKey.hashCode key)
  (hash, m.dimensions.bucketOf hash)

def startWriting : MapTask K Unit := do
  if (← get).self.busy then throw .sessionActive
  modify (·.update fun m => { m with busy := true, changes := some [] })

def put [DecidableEq K] [FixedKey K] (key : K) (value : Int64) : MapTask K Unit := do
  let m := (← get).self
  match m.changes with
  | none => throw .noSession
  | some changes =>
    let changes := changes.insert (m.place key).2 key value
    modify fun s => (s.update fun m => { m with changes := some changes }).count fun c =>
      { c with puts := c.puts + 1 }

end PagedMap

end MeteredStorage
