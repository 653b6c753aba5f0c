import MeteredStorage.PagedMap.Lookup

namespace MeteredStorage

inductive FlushStage (K : Type)
  | opening
  | next
  | reading (bucket : Nat) (changes : List (K × Int64)) (location : Int64)
  | storing (bucket : Nat) (page : Bytes)
  | publishing (bucket : Nat) (location : Int64)
  | closing (failure : Option MapError)

structure Flush (K : Type) where
  /-- The buckets that have not been begun. -/
  todo : ChangeSet K
  /-- The number of buckets in all. -/
  size : Nat
  /-- The buffer that pages are read into; it keeps the bytes of the last page. -/
  buffer : Bytes
  stage : FlushStage K

namespace Flush

variable {K : Type} [FixedKey K]

def applyChanges (form : PageForm) :
    List (K × Int64) → Bytes → Except (MapError × Bytes) Bytes
  | [], page => .ok page
  | (key, value) :: rest, page =>
    match Page.put form (FixedKey.spread (FixedKey.hashCode key)) key value page with
    | .ok page => applyChanges form rest page
    | .error e => .error (e, page)

def start (s : MapState K) : Progress (Flush K) (Except MapError Unit) × MapState K :=
  match s.self.changes with
  | none => (.done (.error .noSession), s)
  | some [] => (.done (.ok ()), s.update fun m => { m with changes := none, busy := false })
  | some changes =>
    (.running ⟨changes, changes.length, Bytes.zeros pageSize, .opening⟩,
      s.update fun m => { m with changes := none })

def withStage (f : Flush K) (stage : FlushStage K) : Flush K := { f with stage := stage }

def compose (f : Flush K) (bucket : Nat) (changes : List (K × Int64)) (page : Bytes)
    (s : MapState K) : Flush K × MapState K :=
  match applyChanges s.self.dimensions.form changes page with
  | .ok page => ({ f with buffer := page }.withStage (.storing bucket page), s)
  | .error (e, page) =>
    (f.withStage (.closing (some e)),
      s.report (.pageOverflow (Page.listing s.self.dimensions.form page) changes.length))

def readStep (f : Flush K) (bucket : Nat) (changes : List (K × Int64)) (location : Int64)
    (s : MapState K) : Flush K × MapState K :=
  if location = 0 then f.compose bucket changes (Page.fresh bucket) s
  else
    match PagedMap.readPage s bucket location f.buffer with
    | (.page page, s) => f.compose bucket changes page s
    | (.moved target, s) => (f.withStage (.reading bucket changes target), s)
    | (.failed e, s) => (f.withStage (.closing (some e)), s)

def closeStep (f : Flush K) (failure : Option MapError) (s : MapState K) :
    Except MapError Unit × MapState K :=
  let buckets := s.self.dimensions.buckets
  let (r, s) := s.inArchive (Archive.endWriting 0 (Int64.ofInt buckets))
  let idle := s.update fun m => { m with busy := false }
  match failure, r with
  | some e, .ok () => (.error e, idle)
  | some e, .error ending => (.error e, idle.report (.sessionNotEnded ending))
  | none, .ok () => (.ok (), idle.report (.pagesWritten s.self.name f.size))
  | none, .error ending => (.error (.archive ending), idle)

def step (f : Flush K) (s : MapState K) : Progress (Flush K) (Except MapError Unit) × MapState K :=
  match f.stage with
  | .opening =>
    match s.inArchive Archive.startWriting with
    | (.ok (), s) => (.running (f.withStage .next), s)
    | (.error e, s) => (.done (.error (.archive e)), s.update fun m => { m with busy := false })
  | .next =>
    match f.todo with
    | [] => (.running (f.withStage (.closing none)), s)
    | (bucket, changes) :: todo =>
      (.running ({ f with todo := todo }.withStage (.reading bucket changes (s.self.table.get bucket))), s)
  | .reading bucket changes location =>
    let (f, s) := f.readStep bucket changes location s
    (.running f, s)
  | .storing bucket page =>
    match s.inArchive (Archive.store ⟨Int64.ofInt bucket, page⟩) with
    | (.ok location, s) => (.running (f.withStage (.publishing bucket location)), s)
    | (.error e, s) => (.running (f.withStage (.closing (some (.archive e)))), s)
  | .publishing bucket location =>
    let s := s.update fun m => { m with table := m.table.set bucket location }
    let s := s.count fun c => { c with written := c.written + 1 }
    (.running (f.withStage .next), s.report (.pageStored bucket location))
  | .closing failure =>
    let (r, s) := f.closeStep failure s
    (.done r, s)

def reads (f : Flush K) : Bool :=
  match f.stage with
  | .reading _ _ location => location != 0
  | _ => false

def weight (f : Flush K) (s : MapState K) : Nat :=
  6 * f.todo.length +
    match f.stage with
    | .opening => 3
    | .next => 2
    | .reading bucket _ location => if s.self.table.get bucket = location then 5 else 6
    | .storing _ _ => 4
    | .publishing _ _ => 3
    | .closing _ => 1

theorem weight_compose (f : Flush K) (bucket : Nat) (changes : List (K × Int64)) (page : Bytes)
    (s t : MapState K) : (f.compose bucket changes page s).1.weight t < 6 * f.todo.length + 5 := by
  unfold compose
  split <;> simp [weight, withStage]

theorem weight_readStep (f : Flush K) (bucket : Nat) (changes : List (K × Int64)) (location : Int64)
    (s : MapState K) :
    (f.readStep bucket changes location s).1.weight (f.readStep bucket changes location s).2 <
      (f.withStage (.reading bucket changes location)).weight s := by
  have hle : 6 * f.todo.length + 5 ≤ (f.withStage (.reading bucket changes location)).weight s := by
    simp only [weight, withStage]
    split <;> omega
  unfold readStep
  split
  · exact Nat.lt_of_lt_of_le (weight_compose f bucket changes _ s _) hle
  · have ht := PagedMap.table_readPage s bucket location f.buffer
    split
    · exact Nat.lt_of_lt_of_le (weight_compose f bucket changes _ _ _) hle
    · rename_i heq
      have hm := PagedMap.readPage_moved (congrArg Prod.fst heq)
      rw [heq] at ht
      simp only at ht
      simp [weight, withStage, ht, hm.1, hm.2]
    · refine Nat.lt_of_lt_of_le ?_ hle
      simp [weight, withStage]

theorem weight_step {f f' : Flush K} {s s' : MapState K} (h : f.step s = (.running f', s')) :
    f'.weight s' < f.weight s := by
  unfold step at h
  split at h
  case h_1 hs =>
    split at h
    · cases h
      simp [weight, withStage, hs]
    · cases h
  case h_2 hs =>
    split at h
    · cases h
      simp [weight, withStage, hs]
    · rename_i heq
      cases h
      simp only [weight, withStage, hs, heq, List.length_cons]
      split <;> omega
  case h_3 bucket changes location hs =>
    have hw := weight_readStep f bucket changes location s
    cases h
    have hf : f.withStage (.reading bucket changes location) = f := by
      cases f
      simp_all [withStage]
    rwa [hf] at hw
  case h_4 hs =>
    split at h <;> cases h <;> simp [weight, withStage, hs]
  case h_5 hs =>
    cases h
    simp [weight, withStage, hs]
  case h_6 hs => cases h

def run (f : Flush K) (s : MapState K) : Except MapError Unit × MapState K :=
  match _h : f.step s with
  | (.done r, s') => (r, s')
  | (.running f', s') => f'.run s'
termination_by f.weight s
decreasing_by exact weight_step _h

def runToRead (f : Flush K) (s : MapState K) :
    Progress (Flush K) (Except MapError Unit) × MapState K :=
  if f.reads then (.running f, s)
  else
    match _h : f.step s with
    | (.done r, s') => (.done r, s')
    | (.running f', s') => f'.runToRead s'
termination_by f.weight s
decreasing_by exact weight_step _h

end Flush

def PagedMap.endWriting {K : Type} [FixedKey K] : MapTask K Unit := fun s =>
  match Flush.start s with
  | (.done r, s) => (r, s)
  | (.running f, s) => f.run s

end MeteredStorage
