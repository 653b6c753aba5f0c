import MeteredStorage.Archive.Merge
import MeteredStorage.Archive.Replay
import MeteredStorage.PagedMap.Lookup

namespace MeteredStorage

inductive MapMergeStage
  | publishing (moves : List Relocation)
  | removing (segments : List Segment)

structure MapMerge where
  merge : Merge
  /-- The number of segments that were chosen. -/
  files : Nat
  relocated : Nat
  stage : MapMergeStage

namespace PagedMap

variable {K : Type}

/-- Gives a moved page its new location if its old one is still the present one. -/
def relocate (m : PagedMap K) (move : Relocation) : PagedMap K × Nat :=
  let key := move.key.toInt
  if 0 ≤ key ∧ key < m.dimensions.buckets ∧ m.table.get key.toNat = move.source then
    ({ m with table := m.table.set key.toNat move.target }, 1)
  else (m, 0)

end PagedMap

namespace MapMerge

variable {K : Type}

def conclude (s : MapState K) (files relocated : Nat) : Except MapError Nat × MapState K :=
  let s := s.count fun c => { c with merges := c.merges + 1 }
  (.ok files, s.report (.mapMergeCompleted s.self.name files relocated))

def prepare (files : List Segment) (s : MapState K) :
    Progress MapMerge (Except MapError Nat) × MapState K :=
  match s.inArchive (Archive.prepareMerge files) with
  | (.error e, s) => (.done (.error (.archive e)), s)
  | (.ok none, s) =>
    let (r, s) := conclude s files.length 0
    (.done r, s)
  | (.ok (some m), s) => (.running ⟨m, files.length, 0, .publishing m.moves⟩, s)

/--
Chooses the oldest segments that have at most `limit` bytes together and makes the output of their
merge. Fewer than two are not merged.
-/
def start (limit : UInt64) (s : MapState K) :
    Progress MapMerge (Except MapError Nat) × MapState K :=
  let files := s.self.archive.oldest limit
  if files.length < 2 then (.done (.ok 0), s)
  else prepare files (s.report (.mapMergeStarted s.self.name files.length))

def step (m : MapMerge) (s : MapState K) :
    Progress MapMerge (Except MapError Nat) × MapState K :=
  match m.stage with
  | .publishing (move :: moves) =>
    let (map, n) := s.self.relocate move
    (.running { m with relocated := m.relocated + n, stage := .publishing moves }, { s with self := map })
  | .publishing [] => (.running { m with stage := .removing m.merge.inputs }, s)
  | .removing (segment :: segments) =>
    match s.inArchive (Archive.removeSegment segment) with
    | (.ok (), s) => (.running { m with stage := .removing segments }, s)
    | (.error e, s) => (.done (.error (.archive e)), s)
  | .removing [] =>
    match s.inArchive (Archive.concludeMerge m.merge) with
    | (.ok (), s) =>
      let (r, s) := conclude s m.files m.relocated
      (.done r, s)
    | (.error e, s) => (.done (.error (.archive e)), s)

def weight (m : MapMerge) : Nat :=
  match m.stage with
  | .publishing moves => moves.length + m.merge.inputs.length + 1
  | .removing segments => segments.length

theorem weight_step {m m' : MapMerge} {s s' : MapState K} (h : m.step s = (.running m', s')) :
    m'.weight < m.weight := by
  unfold step at h
  split at h
  case h_1 hs =>
    cases h
    simp only [weight, hs, List.length_cons]
    omega
  case h_2 hs =>
    cases h
    simp [weight, hs]
  case h_3 hs =>
    split at h
    · cases h
      simp [weight, hs]
    · cases h
  case h_4 =>
    split at h <;> cases h

def run (m : MapMerge) (s : MapState K) : Except MapError Nat × MapState K :=
  match _h : m.step s with
  | (.done r, s') => (r, s')
  | (.running m', s') => m'.run s'
termination_by m.weight
decreasing_by exact weight_step _h

end MapMerge

def PagedMap.merge {K : Type} (limit : UInt64) : MapTask K Nat := fun s =>
  match MapMerge.start limit s with
  | (.done r, s) => (r, s)
  | (.running m, s) => m.run s

end MeteredStorage
