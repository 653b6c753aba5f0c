import MeteredStorage.Proofs.PagedMap.Writing

namespace MeteredStorage

inductive GetStage (K : Type)
  | reading (lookup : Lookup K)
  | missed (lookup : Lookup K) (index : UInt32)
  | returned (result : Except MapError Int64)

variable {K : Type} [FixedKey K]

namespace Lookup

def read (l : Lookup K) (s : MapState K) : GetStage K × MapState K :=
  match s.inArchive (Archive.readInto l.location .data (Bytes.zeros pageSize)) with
  | (.error (.segmentMissing index), s) => (.missed l index, s)
  | _ =>
    match l.step s with
    | (.done r, s) => (.returned r, s)
    | (.running l, s) => (.reading l, s)

def reload (l : Lookup K) (index : UInt32) (s : MapState K) : GetStage K × MapState K :=
  let current := s.self.table.get l.bucket
  if current = l.location then (.returned (.error (.archive (.segmentMissing index))), s)
  else (.reading { l with location := current }, s.report (.pageRelocated l.bucket l.location current))

def resume : GetStage K × MapState K → Progress (Lookup K) (Except MapError Int64) × MapState K
  | (.reading l, s) => (.running l, s)
  | (.returned r, s) => (.done r, s)
  | (.missed l index, s) =>
    match l.reload index s with
    | (.returned r, s) => (.done r, s)
    | (.reading l, s) => (.running l, s)
    | (.missed l _, s) => (.running l, s)

theorem read_of_zero {l : Lookup K} (h : l.location = 0) (s : MapState K) :
    l.read s = (.returned (.ok l.notFound), s) := by
  have hread : s.inArchive (Archive.readInto l.location .data (Bytes.zeros pageSize)) =
      (.error (.invalidLocation l.location), s) := by
    have hnone : Location.segment? l.location = none := by
      rw [h, Location.segment?, if_pos (by rw [Location.maxOffset_eq]; decide)]
    exact MapState.inArchive_run (t := ⟨s.self.archive, s.host⟩) (by
      simp [Archive.readInto, Archive.fetch, hnone])
  simp only [read, hread, step, if_pos h]

theorem resume_read (l : Lookup K) (s : MapState K) : resume (l.read s) = l.step s := by
  by_cases hzero : l.location = 0
  · rw [read_of_zero hzero, step, if_pos hzero]
    rfl
  · rw [read]
    split
    · rename_i index t hrun
      rw [step, if_neg hzero, PagedMap.readPage, hrun]
      by_cases hsame : t.self.table.get l.bucket = l.location
      · simp only [resume, reload, if_pos hsame]
      · simp only [resume, reload, if_neg hsame]
    · rcases l.step s with ⟨p, t⟩
      cases p <;> rfl

theorem alike_read (l : Lookup K) (s : MapState K) : Alike s (l.read s).2 := by
  have hread := alike_readInto s l.location .data (Bytes.zeros pageSize)
  have hstep := l.alike_step s
  rw [read]
  split
  · rename_i heq
    rwa [heq] at hread
  · split <;> simp_all

omit [FixedKey K] in
theorem alike_reload (l : Lookup K) (index : UInt32) (s : MapState K) :
    Alike s (l.reload index s).2 := by
  rw [reload]
  split
  · exact .refl s
  · exact .report s _

end Lookup

/-- A get with a record of what it has met. -/
structure Get (K : Type) where
  key : K
  notFound : Int64
  stage : GetStage K
  /-- The states of the map since the start of the get, oldest first. -/
  window : List (MapState K)
  /-- How often the slot has been loaded again. -/
  retries : Nat
  /-- A merge has been under way since the start of the get. -/
  overlapped : Bool

namespace Get

def start (key : K) (notFound : Int64) (merging : Bool) (s : MapState K) : Get K × MapState K :=
  let (l, s) := Lookup.start key notFound s
  (⟨key, notFound, .reading l, [s], 0, merging⟩, s)

def saw (s : MapState K) (merging : Bool) (g : Get K) : Get K :=
  match g.stage with
  | .returned _ => g
  | _ => { g with window := g.window ++ [s], overlapped := g.overlapped || merging }

def advance (g : Get K) (s : MapState K) : Get K × MapState K :=
  match g.stage with
  | .reading l =>
    let (stage, s) := l.read s
    ({ g with stage := stage }, s)
  | .missed l index =>
    let (stage, s) := l.reload index s
    ({ g with stage := stage, retries := g.retries + 1 }, s)
  | .returned _ => (g, s)

theorem alike_advance (g : Get K) (s : MapState K) : Alike s (g.advance s).2 := by
  rw [advance]
  split
  · rename_i l _
    exact l.alike_read s
  · rename_i l index _
    exact l.alike_reload index s
  · exact .refl s

end Get

/-- The slot of a bucket leads to a page with the given bindings, or to none. -/
def Publishes (s : MapState K) (bucket : Nat) : Option (Bindings K) → Prop
  | none => s.self.table.get bucket = 0
  | some bs => s.self.table.get bucket ≠ 0 ∧
      s.self.archive.fetch s.host.disk (s.self.table.get bucket) .data pageSize =
        .ok (Page.image s.self.dimensions.form bucket bs)

variable [DecidableEq K]

/-- The result is the value that the key has in the version of its bucket. -/
def Answers (s : MapState K) (key : K) (notFound : Int64) (r : Except MapError Int64) : Prop :=
  ∃ version, Publishes s (s.self.place key).2 version ∧
    r = .ok ((version.bind fun bs => bs.lookup key).getD notFound)

def Within (vs : List Volume) (location : Int64) : Prop :=
  location = 0 ∨ ∃ r, ⟨r, location⟩ ∈ Volume.allEntries vs

/-- A lookup of a get that is about to read. While a merge has not `settled`, nothing is gone. -/
structure Reads (s : MapState K) (k : Stock) (settled : Bool) (g : Get K) (l : Lookup K) : Prop where
  key : l.key = g.key
  notFound : l.notFound = g.notFound
  place : (l.hash, l.bucket) = s.self.place g.key
  seen : ∃ t ∈ g.window, ∃ version, (t.self.place g.key).2 = l.bucket ∧ Publishes t l.bucket version ∧
    Loaded s k version l.bucket l.location
  held : settled = false → Within k.volumes l.location
  safe : g.overlapped = false ∨ 0 < g.retries → Within k.lasting l.location
  first : settled = false → g.retries = 0

structure Misses (s : MapState K) (k : Stock) (settled : Bool) (g : Get K) (l : Lookup K) : Prop where
  key : l.key = g.key
  notFound : l.notFound = g.notFound
  place : (l.hash, l.bucket) = s.self.place g.key
  gone : Archive.Gone s.self.archive k.volumes l.location
  settled : settled = true
  overlapped : g.overlapped = true
  first : g.retries = 0

inductive Gets (s : MapState K) (k : Stock) (settled : Bool) (g : Get K) : Prop
  | reading {l : Lookup K} (hs : g.stage = .reading l) (h : Reads s k settled g l)
      (hr : g.retries ≤ g.overlapped.toNat) : Gets s k settled g
  | missed {l : Lookup K} {index : UInt32} (hs : g.stage = .missed l index)
      (h : Misses s k settled g l) : Gets s k settled g
  | returned {r : Except MapError Int64} (hs : g.stage = .returned r)
      (h : ∃ t ∈ g.window, Answers t g.key g.notFound r) (hr : g.retries ≤ g.overlapped.toNat) :
      Gets s k settled g

variable {s s' : MapState K} {k k' : Stock} {versions : Versions K} {settled settled' : Bool}
  {g : Get K} {l : Lookup K} {merging : Bool} {b : Nat}

theorem Within.mono {us vs : List Volume} {location : Int64} (h : Within us location)
    (hsub : Volume.allEntries us ⊆ Volume.allEntries vs) : Within vs location := by
  rcases h with hzero | ⟨r, hr⟩
  · exact .inl hzero
  · exact .inr ⟨r, hsub hr⟩

theorem Within.not_gone {a : Archive} {d : Disk} {us vs : List Volume} {location : Int64}
    (h : Within us location) (hh : Archive.Holds a d vs)
    (hsub : Volume.allEntries us ⊆ Volume.allEntries vs) : ¬Archive.Gone a vs location := by
  intro hg
  rcases h with hzero | ⟨r, hr⟩
  · obtain ⟨index, hl, -⟩ := hg
    rw [hzero, Location.segment?, if_pos (by rw [Location.maxOffset_eq]; decide)] at hl
    cases hl
  · exact hg.not_mem hh (hsub hr)

theorem Stock.lasting_subset (k : Stock) :
    Volume.allEntries k.lasting ⊆ Volume.allEntries k.volumes := by
  rw [lasting, volumes, ← List.append_assoc, Volume.allEntries_append (_ ++ _)]
  exact List.subset_append_left ..

theorem Indexed.publishes [LawfulKey K] (h : Indexed s k versions)
    (hb : b < s.self.dimensions.buckets) : Publishes s b (versions b) := by
  rcases h.slot_cases hb with ⟨hzero, hv⟩ | ⟨hne, bs, hv, hl, hm, -⟩
  · rw [hv]
    exact hzero
  · obtain ⟨v, hvol, he⟩ := Volume.mem_allEntries.mp hm
    rw [hv]
    refine ⟨hne, h.holds.fetch hvol he .data (Nat.le_of_eq ?_)⟩
    exact Page.length_image h.shaped.keySize hl

theorem Gets.carried (hg : Gets s k settled g) (h : Indexed s k versions)
    (hd : s'.self.dimensions = s.self.dimensions)
    (he : Archive.Evolves s.self.archive k.volumes s'.self.archive k'.volumes)
    (hsettled : settled' = false → settled = false ∧
      Volume.allEntries k.volumes ⊆ Volume.allEntries k'.volumes)
    (hlasts : ∀ l, g.stage = .reading l → (g.overlapped || merging) = false ∨ 0 < g.retries →
      Volume.allEntries k.lasting ⊆ Volume.allEntries k'.lasting) :
    Gets s' k' settled' (g.saw s' merging) := by
  have hplace (key : K) : s'.self.place key = s.self.place key := by
    rw [PagedMap.place, PagedMap.place, hd]
  obtain ⟨key, notFound, stage, window, retries, overlapped⟩ := g
  cases hg with
  | reading hs hr hretries =>
      cases hs
      obtain ⟨t, ht, version, hb, hp, hl⟩ := hr.seen
      refine .reading rfl ⟨hr.key, hr.notFound, hr.place.trans (hplace key).symm,
        ⟨t, List.mem_append_left _ ht, version, hb, hp, hl.evolves h hd he⟩, fun hf => ?_, fun ho => ?_,
        fun hf => hr.first (hsettled hf).1⟩ ?_
      · exact (hr.held (hsettled hf).1).mono (hsettled hf).2
      · refine (hr.safe ?_).mono (hlasts _ rfl ho)
        rcases ho with ho | ho
        · exact .inl (Bool.or_eq_false_iff.mp ho).1
        · exact .inr ho
      · refine Nat.le_trans hretries ?_
        cases overlapped <;> cases merging <;> simp [Get.saw]
  | missed hs hm =>
      cases hs
      refine .missed rfl ⟨hm.key, hm.notFound, hm.place.trans (hplace key).symm, hm.gone.evolves he, ?_,
        ?_, hm.first⟩
      · cases settled' with
        | true => rfl
        | false => exact absurd ((hsettled rfl).1.symm.trans hm.settled) (by decide)
      · have ho : overlapped = true := hm.overlapped
        simp [Get.saw, ho]
  | returned hs hr hretries =>
      cases hs
      exact .returned rfl hr hretries

theorem Lookup.read_of_readInto [LawfulKey K] (h : Indexed s k versions)
    (hplace : (l.hash, l.bucket) = s.self.place l.key) (hne : l.location ≠ 0) {bs : Bindings K}
    (hl : bs.length ≤ s.self.dimensions.form.perPage)
    (hrun : s.inArchive (Archive.readInto l.location .data (Bytes.zeros pageSize)) =
      (.ok (pageSize, Page.image s.self.dimensions.form l.bucket bs), s')) (ha : Alike s s') :
    l.read s = (.returned (.ok ((bs.lookup l.key).getD l.notFound)), s') := by
  have hbucket : l.bucket = (s.self.place l.key).2 := congrArg Prod.snd hplace
  have hb : l.bucket < s.self.dimensions.buckets := by
    rw [hbucket]
    exact h.place_lt l.key
  have hhash : l.hash = FixedKey.spread (FixedKey.hashCode l.key) := congrArg Prod.fst hplace
  have hpage := h.readPage_of_readInto hb hl hrun ha
  have hvalue := Page.value?_image h.shaped.keySize l.bucket hl l.key
  rw [← hhash, ← ha.dimensions] at hvalue
  rw [← ha.dimensions] at hpage
  simp only [read, hrun, step, if_neg hne, hpage, hvalue]

omit [DecidableEq K] in
/-- Only a first read, beside a merge that has settled, can find its volume gone. -/
theorem Reads.missed (hr : Reads s k settled g l) (h : Indexed s k versions)
    (hgone : Archive.Gone s.self.archive k.volumes l.location) : Misses s k settled g l := by
  have hunsafe : ¬(g.overlapped = false ∨ 0 < g.retries) := fun ho =>
    (hr.safe ho).not_gone h.holds k.lasting_subset hgone
  refine ⟨hr.key, hr.notFound, hr.place, hgone, ?_, ?_, ?_⟩
  · cases settled with
    | true => rfl
    | false => exact absurd hgone ((hr.held rfl).not_gone h.holds fun _ he => he)
  · exact (Bool.not_eq_false _).mp fun ho => hunsafe (.inl ho)
  · exact Nat.eq_zero_of_not_pos fun hpos => hunsafe (.inr hpos)

/-- A get that reads returns what the bucket showed at some moment since its start, or it misses. -/
theorem Reads.advance [LawfulKey K] (hr : Reads s k settled g l) (h : Indexed s k versions)
    (hs : g.stage = .reading l) :
    (∃ r s', g.advance s = ({ g with stage := .returned r }, s') ∧ Alike s s' ∧
      ∃ t ∈ g.window, Answers t g.key g.notFound r) ∨
    ∃ index, g.advance s = ({ g with stage := .missed l index }, s) ∧ Misses s k settled g l := by
  obtain ⟨t, ht, version, hbucket, hp, hl⟩ := hr.seen
  have hplace : (l.hash, l.bucket) = s.self.place l.key := by
    rw [hr.key]
    exact hr.place
  rw [← hbucket] at hp
  rcases hl with ⟨hzero, rfl⟩ | ⟨bs, rfl, hlength, hne, htraced⟩
  · refine .inl ⟨.ok l.notFound, s, ?_, .refl s, t, ht, none, hp, ?_⟩
    · simp only [Get.advance, hs, Lookup.read_of_zero hzero]
    · rw [hr.notFound]
      rfl
  · have hdata : (pageRecord s.self.dimensions.form l.bucket bs).data.length = pageSize :=
      Page.length_image h.shaped.keySize hlength
    rcases h.readInto_cases htraced (hdata.trans (Bytes.length_zeros _).symm) with
      ⟨s1, hrun, ha⟩ | ⟨index, hrun, hgone⟩
    · rw [hdata] at hrun
      have hread := Lookup.read_of_readInto h hplace hne hlength hrun ha
      refine .inl ⟨.ok ((bs.lookup l.key).getD l.notFound), s1, ?_, ha, t, ht, some bs, hp, ?_⟩
      · simp only [Get.advance, hs, hread]
      · rw [hr.key, hr.notFound]
        rfl
    · refine .inr ⟨index, ?_, hr.missed h hgone⟩
      simp only [Get.advance, hs, Lookup.read, hrun]

/-- A get that missed loads the slot again, which leads to a volume that lasts. -/
theorem Misses.advance [LawfulKey K] (hm : Misses s k settled g l) (h : Indexed s k versions)
    (hmoves : settled = true → k.moves = []) (merging : Bool) {index : UInt32}
    (hs : g.stage = .missed l index) :
    ∃ g' s' l', g.advance s = (g', s') ∧ Alike s s' ∧ g'.stage = .reading l' ∧
      Reads s' k settled (g'.saw s' merging) l' ∧ g'.retries ≤ (g'.overlapped || merging).toNat := by
  have hbucket : l.bucket = (s.self.place g.key).2 := congrArg Prod.snd hm.place
  have hb : l.bucket < s.self.dimensions.buckets := by
    rw [hbucket]
    exact h.place_lt g.key
  let s1 := s.report (.pageRelocated l.bucket l.location (s.self.table.get l.bucket))
  let l1 : Lookup K := { l with location := s.self.table.get l.bucket }
  have ha : Alike s s1 := .report s _
  have h1 := (h.alike ha).indexed
  have hlasting : Within k.lasting (s.self.table.get l.bucket) := by
    rcases h.slot_cases hb with ⟨hz, -⟩ | ⟨-, bs, -, -, -, hlast⟩
    · exact .inl hz
    · exact .inr ⟨_, hlast (hmoves hm.settled)⟩
  refine ⟨{ g with stage := .reading l1, retries := g.retries + 1 }, s1, l1, ?_, ha, rfl,
    ⟨hm.key, hm.notFound, hm.place, ⟨s1, List.mem_append_right _ (by simp), versions l.bucket,
      hbucket.symm, h1.publishes hb, h1.loaded hb⟩, fun _ => hlasting.mono k.lasting_subset,
      fun _ => hlasting, fun hf => absurd (hf.symm.trans hm.settled) (by decide)⟩, ?_⟩
  · simp only [Get.advance, hs, Lookup.reload, if_neg (h.slot_ne_of_gone hb hm.gone)]
    rfl
  · simp [hm.first, hm.overlapped]

theorem Gets.advance [LawfulKey K] (hg : Gets s k settled g) (h : Indexed s k versions)
    (hmoves : settled = true → k.moves = []) (merging : Bool) :
    ∃ g' s', g.advance s = (g', s') ∧ Alike s s' ∧ Gets s' k settled (g'.saw s' merging) := by
  have hsaw {g : Get K} (hg : Gets s k settled g) : Gets s k settled (g.saw s merging) :=
    hg.carried h rfl (.of_perm (Nat.le_refl _) (List.Perm.refl _)) (fun hf => ⟨hf, fun _ he => he⟩)
      fun _ _ _ _ he => he
  cases hg with
  | @reading l hs hr hretries =>
      rcases hr.advance h hs with ⟨r, s1, hgo, ha, hanswers⟩ | ⟨index, hgo, hm⟩
      · exact ⟨_, s1, hgo, ha, .returned rfl hanswers hretries⟩
      · exact ⟨_, s, hgo, .refl s, hsaw (.missed rfl
          ⟨hm.key, hm.notFound, hm.place, hm.gone, hm.settled, hm.overlapped, hm.first⟩)⟩
  | missed hs hm =>
      obtain ⟨g1, s1, l1, hgo, ha, hstage, hr, hretries⟩ := hm.advance h hmoves merging hs
      refine ⟨g1, s1, hgo, ha, .reading (l := l1) ?_ hr ?_⟩
      · simp only [Get.saw, hstage]
      · simpa only [Get.saw, hstage] using hretries
  | returned hs hr hretries =>
      refine ⟨g, s, ?_, .refl s, hsaw (.returned hs hr hretries)⟩
      simp only [Get.advance, hs]

end MeteredStorage
