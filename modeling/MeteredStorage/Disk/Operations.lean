import MeteredStorage.Disk.Route

namespace MeteredStorage.Disk

def createFile (path : Path) : DiskTask (Nat × Nat) := do
  match ← aim path with
  | .directory .. => throw .alreadyExists
  | .name trail name closed =>
    if closed then throw .isADirectory
    match ← lookIn trail name with
    | some _ => throw .alreadyExists
    | none =>
      let slot := (← get).contents.length
      perform (.createFile (Trail.place trail name))
      return (slot, ← openHandle)

def unlink (path : Path) : DiskTask Unit := do
  match ← aim path with
  | .directory .. => throw .isADirectory
  | .name trail name closed =>
    match ← lookIn trail name with
    | none => throw .notFound
    | some (.directory _) => throw .isADirectory
    | some (.file _) => if closed then throw .notADirectory else perform (.unlink (Trail.place trail name))

def unlinkIfPresent (path : Path) : DiskTask Unit := do
  match ← (unlink path).attempt with
  | .ok () => return ()
  | .error .notFound => return ()
  | .error e => throw e

def makeDirectory (path : Path) : DiskTask Unit := do
  match ← aim path with
  | .directory .. => throw .alreadyExists
  | .name trail name _ =>
    match ← lookIn trail name with
    | some _ => throw .alreadyExists
    | none => perform (.makeDirectory (Trail.place trail name))

def ensureDirectory (path : Path) : DiskTask Unit := do
  match ← (makeDirectory path).attempt with
  | .ok () => return ()
  | .error e => if (← get).isDirectory path then return () else throw e

/--
Makes the first of the given directories, which may exist. Only where something on the way to it is
missing, the others are made before it, from the first of them that can be made.
-/
def makeFirst : List Path → DiskTask Unit
  | [] => throw .notFound
  | path :: outer => do
    match ← (ensureDirectory path).attempt with
    | .ok () => return ()
    | .error .notFound =>
      makeFirst outer
      ensureDirectory path
    | .error e => throw e

def makeDirectories (path : Path) : DiskTask Unit := makeFirst (Path.ancestors path)

def sync (path : Path) : DiskTask Unit := do
  match ← look path with
  | none => throw .notFound
  | some _ => return ()

def list (directory : Path) : DiskTask (List (String × Node)) := do
  match ← look directory with
  | none => throw .notFound
  | some (.file _) => throw .notADirectory
  | some (.directory number) => return (← get).entries number

def removeDirectory (path : Path) : DiskTask Unit := do
  match ← aim path with
  | .directory _ piece =>
    throw (if piece = "." then .invalidArgument else if piece = ".." then .directoryNotEmpty else .busy)
  | .name trail name _ =>
    match ← lookIn trail name with
    | none => throw .notFound
    | some (.file _) => throw .notADirectory
    | some (.directory number) =>
      if ((← get).entries number).isEmpty then perform (.unlink (Trail.place trail name))
      else throw .directoryNotEmpty

end MeteredStorage.Disk
