import MeteredStorage.Archive.Session
import MeteredStorage.PagedMap.Basic

namespace MeteredStorage

inductive Progress (σ ρ : Type)
  | running (operation : σ)
  | done (result : ρ)

/-- What comes of reading a page at a location that has been loaded. -/
inductive PageRead
  | page (bytes : Bytes)
  | moved (location : Int64)
  | failed (error : MapError)

namespace PagedMap

variable {K : Type}

def checkPage (form : PageForm) (bucket n : Nat) (page : Bytes) : PageRead :=
  if n ≠ pageSize then .failed (.pageMismatch bucket (Page.index page))
  else
    match Page.validate form bucket page with
    | .ok () => .page page
    | .error e => .failed e

/--
Reads the page of `bucket` at `location` into a buffer. If the segment is gone and the page has a
new location by now, it has moved there.
-/
def readPage (s : MapState K) (bucket : Nat) (location : Int64) (buffer : Bytes) :
    PageRead × MapState K :=
  match s.inArchive (Archive.readInto location .data buffer) with
  | (.ok (n, page), s) => (checkPage s.self.dimensions.form bucket n page, s)
  | (.error (.segmentMissing index), s) =>
    let current := s.self.table.get bucket
    if current = location then (.failed (.archive (.segmentMissing index)), s)
    else (.moved current, s.report (.pageRelocated bucket location current))
  | (.error e, s) => (.failed (.archive e), s)

theorem table_readPage (s : MapState K) (bucket : Nat) (location : Int64) (buffer : Bytes) :
    (readPage s bucket location buffer).2.self.table = s.self.table := by
  have h := s.table_inArchive (Archive.readInto location .data buffer)
  unfold readPage
  split
  · simp_all
  · dsimp only
    split <;> simp_all [MapState.report]
  · simp_all

theorem readPage_moved {s : MapState K} {bucket : Nat} {location target : Int64} {buffer : Bytes}
    (h : (readPage s bucket location buffer).1 = .moved target) :
    s.self.table.get bucket = target ∧ target ≠ location := by
  have ht := s.table_inArchive (Archive.readInto location .data buffer)
  unfold readPage at h
  split at h
  · simp only [checkPage] at h
    split at h
    · cases h
    · split at h <;> cases h
  · rename_i heq
    rw [heq] at ht
    simp only at h ht
    split at h
    · cases h
    · cases h
      exact ⟨by rw [ht], by rw [← ht] at *; assumption⟩
  · cases h

end PagedMap

structure Lookup (K : Type) where
  key : K
  notFound : Int64
  hash : Int32
  bucket : Nat
  location : Int64

namespace Lookup

variable {K : Type} [FixedKey K]

def start (key : K) (notFound : Int64) (s : MapState K) : Lookup K × MapState K :=
  let (hash, bucket) := s.self.place key
  (⟨key, notFound, hash, bucket, s.self.table.get bucket⟩,
    s.count fun c => { c with gets := c.gets + 1 })

def reads (l : Lookup K) : Bool := l.location != 0

def step (l : Lookup K) (s : MapState K) :
    Progress (Lookup K) (Except MapError Int64) × MapState K :=
  if l.location = 0 then (.done (.ok l.notFound), s)
  else
    match PagedMap.readPage s l.bucket l.location (Bytes.zeros pageSize) with
    | (.page page, s) =>
      (.done (.ok ((Page.value? s.self.dimensions.form l.hash l.key page).getD l.notFound)), s)
    | (.moved location, s) => (.running { l with location := location }, s)
    | (.failed e, s) => (.done (.error e), s)

def weight (l : Lookup K) (s : MapState K) : Nat :=
  if s.self.table.get l.bucket = l.location then 0 else 1

theorem weight_step {l l' : Lookup K} {s s' : MapState K} (h : l.step s = (.running l', s')) :
    l'.weight s' < l.weight s := by
  unfold step at h
  split at h
  · cases h
  · have ht := PagedMap.table_readPage s l.bucket l.location (Bytes.zeros pageSize)
    split at h
    · cases h
    · rename_i heq
      cases h
      have hm := PagedMap.readPage_moved (congrArg Prod.fst heq)
      rw [heq] at ht
      simp only at ht
      simp [weight, ht, hm.1, hm.2]
    · cases h

def run (l : Lookup K) (s : MapState K) : Except MapError Int64 × MapState K :=
  match _h : l.step s with
  | (.done r, s') => (r, s')
  | (.running l', s') => l'.run s'
termination_by l.weight s
decreasing_by exact weight_step _h

end Lookup

def PagedMap.find {K : Type} [FixedKey K] (key : K) (notFound : Int64) : MapTask K Int64 := fun s =>
  let (l, s) := Lookup.start key notFound s
  l.run s

end MeteredStorage
