import MeteredStorage.Disk.Operations

namespace MeteredStorage.Disk

def slotAt (path : Path) : DiskTask Nat := do
  match ← look path with
  | none => throw .notFound
  | some (.directory _) => throw .isADirectory
  | some (.file slot) => return slot

def fetch (path : Path) : DiskTask Bytes := do
  let slot ← slotAt path
  return (← get).content slot

def replaceFile (path : Path) (bytes : Bytes) : DiskTask Unit := do
  match ← aim path with
  | .directory .. => throw .isADirectory
  | .name trail name closed =>
    if closed then throw .isADirectory
    match ← lookIn trail name with
    | some (.directory _) => throw .isADirectory
    | some (.file slot) => modify (·.setContent slot bytes)
    | none =>
      perform (.createFile (Trail.place trail name))
      modify fun d => d.setContent (d.contents.length - 1) bytes

def patch (path : Path) (position : Int) (bytes : Bytes) : DiskTask Unit := do
  let slot ← slotAt path
  if bytes.isEmpty then return ()
  let old := (← get).content slot
  let offset := if position < 0 then position + old.length else position
  if offset < 0 then throw .invalidArgument
  modify (·.setContent slot (Bytes.overlay offset.toNat bytes old))

def truncate (path : Path) (length : Nat) : DiskTask Unit := do
  let slot ← slotAt path
  modify fun d => d.setContent slot (Bytes.resize length (d.content slot))

def move (source target : Place) (node : Node) (d : Disk) : Disk :=
  ((d.eraseNode source).eraseNode target).insertNode target node

/--
Why a node in the directory reached by `source` cannot get a name in the one reached by `target`, if
it cannot; the last argument is what the name means so far. No directory comes to lie in itself, and
only a directory may be followed by a slash.
-/
def hindrance? (d : Disk) (source target : Trail) (closed : Bool) :
    Node → Option Node → Option DiskError
  | .file _, some (.directory number) =>
    if closed then some .notADirectory
    else if number ∈ source then some .directoryNotEmpty
    else some .isADirectory
  | .file _, _ => if closed then some .notADirectory else none
  | .directory number, inTheWay =>
    if number ∈ target then some .invalidArgument
    else
      match inTheWay with
      | none => none
      | some (.file _) => some .notADirectory
      | some (.directory old) =>
        if old = number ∨ (d.entries old).isEmpty then none else some .directoryNotEmpty

def rename (source target : Path) : DiskTask Unit := do
  if Path.hasNul target then throw .nulInPath
  if Path.hasNul source then throw .nulInPath
  Task.ofExcept id (admitPath target)
  match ← aim source, ← aim target with
  | .name outOf old closed, .name into new newlyClosed =>
    match ← lookIn outOf old with
    | none => throw .notFound
    | some node =>
      let inTheWay ← lookIn into new
      match hindrance? (← get) outOf into (closed || newlyClosed) node inTheWay with
      | some e => throw e
      | none =>
        if inTheWay = some node then return ()
        else modify (move (Trail.place outOf old) (Trail.place into new) node)
  | _, _ => throw .busy

def listSorted (directory : Path) : DiskTask (List (String × Node)) := do
  return (← list directory).mergeSort fun a b => a.1 ≤ b.1

end MeteredStorage.Disk
