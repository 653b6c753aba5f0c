import MeteredStorage.PagedMap.Basic

namespace MeteredStorage.PagedMap

variable {K : Type}

def insertCount (b : Nat × Nat) : List (Nat × Nat) → List (Nat × Nat)
  | [] => [b]
  | c :: cs => if b.1 ≤ c.1 then b :: c :: cs else c :: insertCount b cs

def changeCounts (changes : ChangeSet K) : List (Nat × Nat) :=
  (changes.map fun (b, cs) => (b, cs.length)).foldr insertCount []

def bucketEvent (perPage : Nat) (b : Nat × Nat) : Event :=
  if perPage < b.2 then .bucketOverflows b.1 b.2 perPage else .bucketChanges b.1 b.2

def sessionEvents (m : PagedMap K) : List Event :=
  match m.changes with
  | none => [.noMapSession m.name]
  | some changes =>
    .mapSession m.name changes.length m.dimensions.buckets ::
      (changeCounts changes).map (bucketEvent m.dimensions.form.perPage)

def reportSession : MapTask K Unit := modify fun s => s.self.sessionEvents.foldl MapState.report s

end MeteredStorage.PagedMap
