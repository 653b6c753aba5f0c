import MeteredStorage.Disk.Basic
import MeteredStorage.Disk.Path

namespace MeteredStorage

/-- The directories from the root to the one reached, innermost first and without the root. -/
abbrev Trail := List Nat

inductive Target
  /-- A name in the directory reached; `closed` if a slash follows it. -/
  | name (trail : Trail) (name : String) (closed : Bool)
  /-- The directory reached, by `.`, by `..` or, if the piece is empty, as the root. -/
  | directory (trail : Trail) (piece : String)

namespace Trail

def number (trail : Trail) : Nat := trail.headD 0

def place (trail : Trail) (name : String) : Place := ⟨number trail, name⟩

end Trail

namespace Disk

def maxNameSize : Nat := 255

def maxPathSize : Nat := 4095

def meaning (d : Disk) (trail : Trail) (name : String) : Except DiskError (Option Node) :=
  if maxNameSize < name.utf8ByteSize then .error .nameTooLong
  else .ok (d.node? (Trail.place trail name))

def walk (d : Disk) (trail : Trail) : List String → Except DiskError Trail
  | [] => .ok trail
  | piece :: pieces =>
    if Path.stays piece then d.walk trail pieces
    else if piece = ".." then d.walk trail.tail pieces
    else
      match d.meaning trail piece with
      | .error e => .error e
      | .ok none => .error .notFound
      | .ok (some (.file _)) => .error .notADirectory
      | .ok (some (.directory number)) => d.walk (number :: trail) pieces

def admitPath (path : Path) : Except DiskError Unit :=
  if Path.hasNul path then .error .nulInPath
  else if maxPathSize < Path.size path then .error .nameTooLong
  else .ok ()

def target (d : Disk) (path : Path) : Except DiskError Target := do
  admitPath path
  match path.reverse.dropWhile (· = "") with
  | [] => return .directory [] ""
  | last :: outer =>
    let trail ← d.walk [] outer.reverse
    if last = "." then return .directory trail last
    else if last = ".." then return .directory trail.tail last
    else return .name trail last (path.getLast? = some "")

/-- What `path` names, if anything; only a directory may be followed by a slash. -/
def find (d : Disk) (path : Path) : Except DiskError (Option Node) := do
  match ← d.target path with
  | .directory trail _ => return some (.directory (Trail.number trail))
  | .name trail name closed =>
    match ← d.meaning trail name with
    | some (.file slot) => if closed then throw .notADirectory else return some (.file slot)
    | node => return node

def isDirectory (d : Disk) (path : Path) : Bool :=
  match d.find path with
  | .ok (some (.directory _)) => true
  | _ => false

def look (path : Path) : DiskTask (Option Node) := do
  Task.ofExcept id ((← get).find path)

def aim (path : Path) : DiskTask Target := do
  Task.ofExcept id ((← get).target path)

def lookIn (trail : Trail) (name : String) : DiskTask (Option Node) := do
  Task.ofExcept id ((← get).meaning trail name)

end Disk

end MeteredStorage
