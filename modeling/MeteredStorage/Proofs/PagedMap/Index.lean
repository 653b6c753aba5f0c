import MeteredStorage.Proofs.Archive.Leftovers
import MeteredStorage.Proofs.PagedMap.Slots

namespace MeteredStorage

namespace MapState

variable {K α : Type}

def archived (s : MapState K) : Hosted Archive := ⟨s.self.archive, s.host⟩

def withArchive (s : MapState K) (t : Hosted Archive) : MapState K :=
  { self := { s.self with archive := t.self }, host := t.host }

theorem inArchive_run {s : MapState K} {task : ArchiveTask α} {r : Except ArchiveError α}
    {t : Hosted Archive} (h : task ⟨s.self.archive, s.host⟩ = (r, t)) :
    s.inArchive task = (r, s.withArchive t) := by
  rw [inArchive, h]
  rfl

theorem inArchive_cases {s t : MapState K} {task : ArchiveTask α} {r : Except ArchiveError α}
    {P : Hosted Archive → Prop} {Q : α → Hosted Archive → Prop} {E : ArchiveError → Hosted Archive → Prop}
    (h : Task.Ensures P Q E task) (hs : P s.archived) (hrun : s.inArchive task = (r, t)) :
    (∃ a u, r = .ok a ∧ t = s.withArchive u ∧ Q a u) ∨
      ∃ e u, r = .error e ∧ t = s.withArchive u ∧ E e u := by
  rcases hgo : task s.archived with ⟨r', u⟩
  rw [MapState.inArchive_run hgo] at hrun
  cases hrun
  rcases Task.Ensures.run h hs hgo with ⟨a, rfl, hq⟩ | ⟨e, rfl, he⟩
  · exact .inl ⟨a, u, rfl, rfl, hq⟩
  · exact .inr ⟨e, u, rfl, rfl, he⟩

end MapState

variable {K : Type}

/-- `t` comes from `s` by steps that published `written` pages and took `used` indices. -/
structure Kin (written used : Nat) (s t : MapState K) : Prop where
  name : t.self.name = s.self.name
  dimensions : t.self.dimensions = s.self.dimensions
  changes : t.self.changes = s.self.changes
  counted : t.self.counts.written = s.self.counts.written + written
  follows : Archive.Follows used s.self.archive t.self.archive

theorem Kin.trans {s t u : MapState K} {m n m' n' : Nat} (h : Kin m n s t) (h' : Kin m' n' t u) :
    Kin (m + m') (n + n') s u where
  name := h'.name.trans h.name
  dimensions := h'.dimensions.trans h.dimensions
  changes := h'.changes.trans h.changes
  counted := by rw [h'.counted, h.counted, Nat.add_assoc]
  follows := h.follows.trans h'.follows

theorem Kin.withArchive {s : MapState K} {t : Hosted Archive} {n : Nat}
    (h : Archive.Follows n s.self.archive t.self) : Kin 0 n s (s.withArchive t) :=
  ⟨rfl, rfl, rfl, rfl, h⟩

/-- A step that changes only counts, the log and the clock. -/
structure Alike (s t : MapState K) : Prop where
  name : t.self.name = s.self.name
  dimensions : t.self.dimensions = s.self.dimensions
  changes : t.self.changes = s.self.changes
  table : t.self.table = s.self.table
  counted : t.self.counts.written = s.self.counts.written
  directory : t.self.archive.directory = s.self.archive.directory
  archiveName : t.self.archive.name = s.self.archive.name
  segments : t.self.archive.segments = s.self.archive.segments
  nextIndex : t.self.archive.nextIndex = s.self.archive.nextIndex
  writer : t.self.archive.writer = s.self.archive.writer
  disk : t.host.disk = s.host.disk

theorem Alike.refl (s : MapState K) : Alike s s := by
  constructor <;> rfl

theorem Alike.report (s : MapState K) (event : Event) : Alike s (s.report event) := by
  constructor <;> rfl

theorem Alike.gotten (s : MapState K) :
    Alike s (s.count fun c => { c with gets := c.gets + 1 }) := by
  constructor <;> rfl

theorem Alike.merged (s : MapState K) :
    Alike s (s.count fun c => { c with merges := c.merges + 1 }) := by
  constructor <;> rfl

theorem Alike.rested (s : MapState K) : Alike s (s.update fun m => { m with busy := false }) := by
  constructor <;> rfl

theorem Alike.waited (s : MapState K) (clock : UInt64) :
    Alike s { s with host := { s.host with clock := clock } } := by
  constructor <;> rfl

theorem Alike.trans {s t u : MapState K} (h : Alike s t) (h' : Alike t u) : Alike s u where
  name := h'.name.trans h.name
  dimensions := h'.dimensions.trans h.dimensions
  changes := h'.changes.trans h.changes
  table := h'.table.trans h.table
  counted := h'.counted.trans h.counted
  directory := h'.directory.trans h.directory
  archiveName := h'.archiveName.trans h.archiveName
  segments := h'.segments.trans h.segments
  nextIndex := h'.nextIndex.trans h.nextIndex
  writer := h'.writer.trans h.writer
  disk := h'.disk.trans h.disk

variable [FixedKey K]

def PageKey (buckets : Nat) (key : Int64) : Prop := 0 ≤ key ∧ key ≤ bucketKey buckets

theorem pageKey_bucketKey {buckets b : Nat} (hd : buckets ≤ 0x40000000) (hb : b < buckets) :
    PageKey buckets (bucketKey b) := by
  rw [PageKey, Int64.le_iff_toInt_le, Int64.le_iff_toInt_le, toInt_bucketKey (by omega),
    toInt_bucketKey (by omega)]
  exact ⟨Int.natCast_nonneg b, by omega⟩

/-- The archive of the map is in order, and its table leads into it, whatever the pages hold. -/
structure Located (s : MapState K) (k : Stock) : Prop where
  shaped : Shaped K s.self.dimensions
  shelved : Archive.Shelved s.self.archive s.host.disk k.line k.old k.current
  points : Points s.self.dimensions.buckets s.self.table k
  outdated : Archive.Outdated (PageKey s.self.dimensions.buckets) k.line k.old k.current

structure Indexed (s : MapState K) (k : Stock) (versions : Versions K) : Prop extends
    Located s k where
  shows : Shows s.self.dimensions k.live versions
  pages : ∀ e ∈ Volume.allEntries k.volumes, e.record.IsPage K s.self.dimensions

structure Brings (written used : Nat) (s : MapState K) (k : Stock) (s' : MapState K) (k' : Stock) :
    Prop where
  kin : Kin written used s s'
  located : Located s' k'
  evolves : Archive.Evolves s.self.archive k.volumes s'.self.archive k'.volumes

structure Keeps (written used : Nat) (s : MapState K) (k : Stock) (s' : MapState K) (k' : Stock) :
    Prop extends Brings written used s k s' k' where
  lasts : Volume.allEntries k.lasting ⊆ Volume.allEntries k'.lasting

structure Carries (written used : Nat) (s : MapState K) (k : Stock) (s' : MapState K) (k' : Stock)
    (versions : Versions K) : Prop where
  kin : Kin written used s s'
  indexed : Indexed s' k' versions
  evolves : Archive.Evolves s.self.archive k.volumes s'.self.archive k'.volumes

structure Spares (written used : Nat) (s : MapState K) (k : Stock) (s' : MapState K) (k' : Stock)
    (versions : Versions K) : Prop extends Carries written used s k s' k' versions where
  lasts : Volume.allEntries k.lasting ⊆ Volume.allEntries k'.lasting

variable {s s' t : MapState K} {k k' k'' : Stock} {versions versions' : Versions K} {v : Volume}
  {b m n m' n' : Nat}

theorem Brings.trans (h : Brings m n s k t k') (h' : Brings m' n' t k' s' k'') :
    Brings (m + m') (n + n') s k s' k'' :=
  ⟨h.kin.trans h'.kin, h'.located, h.evolves.trans h'.evolves⟩

theorem Keeps.trans (h : Keeps m n s k t k') (h' : Keeps m' n' t k' s' k'') :
    Keeps (m + m') (n + n') s k s' k'' :=
  ⟨h.toBrings.trans h'.toBrings, fun _ he => h'.lasts (h.lasts he)⟩

theorem Carries.trans (h : Carries m n s k t k' versions') (h' : Carries m' n' t k' s' k'' versions) :
    Carries (m + m') (n + n') s k s' k'' versions :=
  ⟨h.kin.trans h'.kin, h'.indexed, h.evolves.trans h'.evolves⟩

theorem Spares.trans (h : Spares m n s k t k' versions') (h' : Spares m' n' t k' s' k'' versions) :
    Spares (m + m') (n + n') s k s' k'' versions :=
  ⟨h.toCarries.trans h'.toCarries, fun _ he => h'.lasts (h.lasts he)⟩

theorem Located.holds (h : Located s k) : Archive.Holds s.self.archive s.host.disk k.volumes :=
  h.shelved.kept.holds

theorem Located.place_lt (h : Located s k) (key : K) :
    (s.self.place key).2 < s.self.dimensions.buckets :=
  Nat.mod_lt _ h.shaped.buckets_pos

theorem Located.congr (h : Located s k) (hd : s'.self.dimensions = s.self.dimensions)
    (ha : s'.self.archive = s.self.archive) (ht : s'.self.table = s.self.table)
    (hdisk : s'.host.disk = s.host.disk) : Located s' k := by
  refine ⟨hd ▸ h.shaped, ?_, ?_, hd ▸ h.outdated⟩
  · rw [ha, hdisk]
    exact h.shelved
  · rw [hd, ht]
    exact h.points

theorem Indexed.congr (h : Indexed s k versions) (hd : s'.self.dimensions = s.self.dimensions)
    (ha : s'.self.archive = s.self.archive) (ht : s'.self.table = s.self.table)
    (hdisk : s'.host.disk = s.host.disk) : Indexed s' k versions where
  toLocated := h.toLocated.congr hd ha ht hdisk
  shows := hd ▸ h.shows
  pages := hd ▸ h.pages

theorem Indexed.paged [DecidableEq K] [LawfulKey K] (h : Indexed s k versions) :
    ∀ e ∈ Volume.allEntries k.volumes, e.record.Paged :=
  fun e he => (h.pages e he).paged h.shaped

/-- The locations and pages are as they were, so what the buckets show is, too. -/
theorem Indexed.carries (h : Indexed s k versions) (hb : Brings m n s k s' k')
    (hr : Resembles s.self.dimensions.buckets k k') : Carries m n s k s' k' versions where
  kin := hb.kin
  indexed := by
    refine ⟨hb.located, ?_, fun e he => ?_⟩
    · rw [hb.kin.dimensions]
      exact h.shows.congr hr.latest
    · obtain ⟨o, ho, he⟩ := hr.records e he
      rw [← he, hb.kin.dimensions]
      exact h.pages o ho
  evolves := hb.evolves

theorem Indexed.spares (h : Indexed s k versions) (hk : Keeps m n s k s' k')
    (hr : Resembles s.self.dimensions.buckets k k') : Spares m n s k s' k' versions :=
  ⟨h.carries hk.toBrings hr, hk.lasts⟩

theorem Located.alike (h : Located s k) (ha : Alike s s') : Keeps 0 0 s k s' k where
  kin := ⟨ha.name, ha.dimensions, ha.changes, ha.counted, ha.directory, ha.archiveName,
    congrArg UInt32.toNat ha.nextIndex⟩
  located := by
    refine ⟨ha.dimensions ▸ h.shaped, ?_, ?_, ha.dimensions ▸ h.outdated⟩
    · rw [ha.disk]
      exact h.shelved.congr ha.directory ha.archiveName ha.segments ha.nextIndex ha.writer
    · rw [ha.dimensions, ha.table]
      exact h.points
  evolves := .of_perm (Nat.le_of_eq (congrArg UInt32.toNat ha.nextIndex).symm) (List.Perm.refl _)
  lasts := fun _ he => he

theorem Indexed.alike (h : Indexed s k versions) (ha : Alike s s') :
    Spares 0 0 s k s' k versions :=
  h.spares (h.toLocated.alike ha) (.refl _ k)

/-- A slot is zero, or the page of its bucket is where it leads. -/
theorem Indexed.slot_cases (h : Indexed s k versions) (hb : b < s.self.dimensions.buckets) :
    (s.self.table.get b = 0 ∧ versions b = none) ∨
      (s.self.table.get b ≠ 0 ∧ ∃ bs, versions b = some bs ∧
        bs.length ≤ s.self.dimensions.form.perPage ∧
        ⟨pageRecord s.self.dimensions.form b bs, s.self.table.get b⟩ ∈
          Volume.allEntries k.volumes ∧
        (k.moves = [] → ⟨pageRecord s.self.dimensions.form b bs, s.self.table.get b⟩ ∈
          Volume.allEntries k.lasting)) := by
  rcases h.points.slot_cases h.holds hb with ⟨hzero, hnone⟩ | ⟨e, he, hne, hmem⟩
  · exact .inl ⟨hzero, h.shows.empty b hb hnone⟩
  · obtain ⟨bs, hversion, hlength, hrecord⟩ := h.shows.page b hb e he
    rw [hrecord] at hmem
    exact .inr ⟨hne, bs, hversion, hlength, hmem⟩

theorem Indexed.resident [DecidableEq K] [LawfulKey K] (h : Indexed s k versions)
    (hb : b < s.self.dimensions.buckets) {bs : Bindings K} (hv : versions b = some bs) :
    Resident s.self.dimensions b bs := by
  rcases h.slot_cases hb with ⟨-, hnone⟩ | ⟨-, bs', hsome, hl, hm, -⟩
  · rw [hnone] at hv
    cases hv
  · rw [hsome] at hv
    cases hv
    obtain ⟨bucket, bs', hr, he⟩ := h.pages _ hm
    obtain ⟨rfl, rfl⟩ := Page.image_inj h.shaped.keySize (h.shaped.lt hb)
      (h.shaped.lt hr.bucket_lt) hl hr.room (congrArg Record.data he)
    exact hr

theorem Indexed.stored (h : Indexed s k versions) (hc : k.current = some v) {r : Record}
    (hr : r.IsPage K s.self.dimensions) {location : Int64}
    (hk : Keeps m n s k s' { k with current := some (v.push r), fresh := some ⟨r, location⟩ }) :
    Spares m n s k s' { k with current := some (v.push r), fresh := some ⟨r, location⟩ } versions where
  kin := hk.kin
  indexed := by
    refine ⟨hk.located, by rw [hk.kin.dimensions]; exact h.shows, fun e he => ?_⟩
    rw [Stock.volumes, Volume.allEntries_append, Option.toList_some, Volume.allEntries,
      List.flatMap_singleton, Volume.entries_push] at he
    rw [hk.kin.dimensions]
    have hold := h.pages
    rw [Stock.volumes, Volume.allEntries_append, hc, Option.toList_some, Volume.allEntries,
      List.flatMap_singleton] at hold
    simp only [List.mem_append, List.mem_singleton] at he hold
    rcases he with (he | rfl) | he
    · exact hold e (.inl he)
    · exact hr
    · exact hold e (.inr he)
  evolves := hk.evolves
  lasts := hk.lasts

theorem Indexed.published (h : Indexed s k versions) (hb : b < s.self.dimensions.buckets)
    {bs : Bindings K} (hl : bs.length ≤ s.self.dimensions.form.perPage) {location : Int64}
    (hk : Keeps m n s k s' { k with
      shown := k.shown ++ [⟨pageRecord s.self.dimensions.form b bs, location⟩], fresh := none }) :
    Spares m n s k s' { k with
      shown := k.shown ++ [⟨pageRecord s.self.dimensions.form b bs, location⟩], fresh := none }
      (versions.set b bs) where
  kin := hk.kin
  indexed := by
    refine ⟨hk.located, ?_, hk.kin.dimensions ▸ h.pages⟩
    rw [hk.kin.dimensions, Stock.live, ← List.append_assoc]
    exact h.shows.published h.shaped.buckets_le hb hl location
  evolves := hk.evolves
  lasts := hk.lasts

theorem Stock.volumes_perm (k : Stock) (hc : k.current = some v) :
    k.volumes.Perm (v :: (k.line ++ k.old)) := by
  rw [volumes, hc]
  exact List.Perm.refl _

theorem Volume.allEntries_mono {us vs : List Volume} (h : us ⊆ vs) :
    allEntries us ⊆ allEntries vs := by
  intro e he
  obtain ⟨v, hv, hentry⟩ := mem_allEntries.mp he
  exact mem_allEntries.mpr ⟨v, h hv, hentry⟩

namespace Indexed

/-- Reading at a traced location finds the record, or tells that its volume is gone. -/
theorem readInto_cases (h : Indexed s k versions) {l : Int64} {r : Record}
    (ht : Archive.Traced s.self.archive k.volumes l r) {buffer : Bytes}
    (hb : r.data.length = buffer.length) :
    (∃ s', s.inArchive (Archive.readInto l .data buffer) = (.ok (r.data.length, r.data), s') ∧
      Alike s s') ∨
    ∃ index, s.inArchive (Archive.readInto l .data buffer) = (.error (.segmentMissing index), s) ∧
      Archive.Gone s.self.archive k.volumes l := by
  rcases ht with hm | hg
  · obtain ⟨v, hv, he⟩ := Volume.mem_allEntries.mp hm
    have hroom : Segment.partSize .data r.data.length ≤ buffer.length := Nat.le_of_eq hb
    have hfetch := h.holds.fetch hv he .data hroom
    have hover : Bytes.overlay 0 r.data buffer = r.data := Bytes.overlay_all hb
    refine .inl ⟨_, MapState.inArchive_run (t := ⟨{ s.self.archive with
      counts := { s.self.archive.counts with reads := s.self.archive.counts.reads + 1 } }, s.host⟩) ?_,
      by constructor <;> rfl⟩
    simp [Archive.readInto, hfetch, Segment.partBytes, hover]
  · obtain ⟨index, hl, -, hnone⟩ := id hg
    have hs := h.holds.segment?_eq_none hnone
    refine .inr ⟨index, ?_, hg⟩
    exact MapState.inArchive_run (t := ⟨s.self.archive, s.host⟩) (by
      simp [Archive.readInto, Archive.fetch_of_missing hl hs])

theorem slot_ne_of_gone (h : Indexed s k versions) (hb : b < s.self.dimensions.buckets) {l : Int64}
    (hg : Archive.Gone s.self.archive k.volumes l) : s.self.table.get b ≠ l := by
  intro he
  rcases h.slot_cases hb with ⟨hzero, -⟩ | ⟨-, bs, -, -, hm, -⟩
  · obtain ⟨index, hl, -⟩ := hg
    rw [← he, hzero, Location.segment?, if_pos (by rw [Location.maxOffset_eq]; decide)] at hl
    cases hl
  · rw [he] at hm
    exact hg.not_mem h.holds hm

theorem readPage_of_readInto [DecidableEq K] [LawfulKey K] (h : Indexed s k versions)
    (hb : b < s.self.dimensions.buckets) {bs : Bindings K}
    (hl : bs.length ≤ s.self.dimensions.form.perPage) {l : Int64} {buffer : Bytes}
    (hrun : s.inArchive (Archive.readInto l .data buffer) =
      (.ok (pageSize, Page.image s.self.dimensions.form b bs), s')) (ha : Alike s s') :
    PagedMap.readPage s b l buffer = (.page (Page.image s.self.dimensions.form b bs), s') := by
  rw [PagedMap.readPage, hrun]
  simp only [PagedMap.checkPage, ha.dimensions, Page.validate_image (h.shaped.lt hb) hl, ne_eq,
    not_true_eq_false, if_false]

theorem readPage_cases [DecidableEq K] [LawfulKey K] (h : Indexed s k versions)
    (hb : b < s.self.dimensions.buckets) {bs : Bindings K}
    (hl : bs.length ≤ s.self.dimensions.form.perPage) {l : Int64}
    (ht : Archive.Traced s.self.archive k.volumes l (pageRecord s.self.dimensions.form b bs))
    {buffer : Bytes} (hbuffer : buffer.length = pageSize) :
    ∃ s', Alike s s' ∧
      (PagedMap.readPage s b l buffer = (.page (Page.image s.self.dimensions.form b bs), s') ∨
        PagedMap.readPage s b l buffer = (.moved (s.self.table.get b), s')) := by
  have hlength : (pageRecord s.self.dimensions.form b bs).data.length = pageSize :=
    Page.length_image h.shaped.keySize hl
  rcases h.readInto_cases ht (hlength.trans hbuffer.symm) with ⟨s', hrun, ha⟩ | ⟨index, hrun, hg⟩
  · rw [hlength] at hrun
    exact ⟨s', ha, .inl (h.readPage_of_readInto hb hl hrun ha)⟩
  · refine ⟨_, .report s (.pageRelocated b l (s.self.table.get b)), .inr ?_⟩
    rw [PagedMap.readPage, hrun]
    simp only [if_neg (h.slot_ne_of_gone hb hg)]

end Indexed

namespace Located

theorem startWriting_cases (h : Located s k) (hc : k.current = none)
    (hnext : s.self.archive.nextIndex.toNat + 1 < 0x100000000) :
    (∃ e s', s.inArchive Archive.startWriting = (.error e, s') ∧ Keeps 0 1 s k s' k ∧
      (e = .indicesExhausted ↔ Location.maxSegments ≤ s.self.archive.nextIndex.toNat)) ∨
    ∃ v s', s.inArchive Archive.startWriting = (.ok (), s') ∧
      s.self.archive.nextIndex.toNat < Location.maxSegments ∧
      Keeps 0 1 s k s' { k with current := some v } ∧
      Resembles s.self.dimensions.buckets k { k with current := some v } := by
  have hs := h.shelved
  have ho := h.outdated
  rw [hc] at hs ho
  rcases Archive.Shelved.startWriting_cases (s := ⟨s.self.archive, s.host⟩) hs hnext with
    ⟨e, t, hrun, hf, hshelved, he⟩ | ⟨v, t, hrun, hempty, hindex, hmax, hf, hshelved⟩
  · refine .inl ⟨e, _, MapState.inArchive_run hrun, ⟨⟨Kin.withArchive hf,
      ⟨h.shaped, ?_, h.points, h.outdated⟩, .of_perm ?_ (List.Perm.refl _)⟩, fun _ hm => hm⟩, he⟩
    · rw [hc]
      exact hshelved
    · exact Nat.le_trans (Nat.le_succ _) (Nat.le_of_eq hf.nextIndex.symm)
  · have horigin : v.segment.origin = s.self.archive.nextIndex.toNat := by
      simp [Segment.origin, hshelved.unfinished v rfl, hindex]
    refine .inr ⟨v, _, MapState.inArchive_run hrun, hmax, ⟨⟨Kin.withArchive hf,
      ⟨h.shaped, hshelved, h.points.started hc hempty, ho.started fun u hu => ?_⟩,
      .added ?_ hindex ?_⟩, ?_⟩, .of_subset rfl ?_⟩
    · rw [horigin]
      exact hs.kept.holds.index_lt u (by simp [hu])
    · exact Nat.le_trans (Nat.le_succ _) (Nat.le_of_eq hf.nextIndex.symm)
    · rw [Stock.volumes, Stock.volumes, hc]
      exact List.Perm.refl _
    · intro e he
      rw [Stock.lasting, hc] at he
      rw [Stock.lasting, Volume.allEntries_append]
      exact List.mem_append_right _ he
    · have hnone : v.entries = [] := by rw [Volume.entries, hempty]; rfl
      rw [Stock.volumes, Stock.volumes, hc, Option.toList_some, Option.toList_none, List.nil_append,
        Volume.allEntries, List.singleton_append, List.flatMap_cons, hnone]
      exact fun e he => he

theorem store_cases (h : Located s k) (hf : k.fresh = none) (r : Record) :
    (∃ e, s.inArchive (Archive.store r) = (.error e, s) ∧
      ∀ v ∈ k.current, r.Fits → Location.maxOffset < v.dataSize + r.size) ∨
    ∃ v location s', k.current = some v ∧ s.inArchive (Archive.store r) = (.ok location, s') ∧
      Keeps 0 0 s k s' { k with
        current := some (v.push r)
        fresh := some ⟨r, location⟩ } := by
  rcases Archive.Shelved.store_cases (s := ⟨s.self.archive, s.host⟩) h.shelved r with
    ⟨e, hrun, -, hfull⟩ | ⟨v, t, hc, -, -, hrun, hfollows, hshelved⟩
  · exact .inl ⟨e, MapState.inArchive_run hrun, hfull⟩
  · have hsub : v.entries ⊆ (v.push r).entries := by
      rw [Volume.entries_push]
      exact List.subset_append_left ..
    have hindex : (v.push r).segment.index = v.segment.index := rfl
    have ho := h.outdated
    rw [hc] at ho
    refine .inr ⟨v, _, _, hc, MapState.inArchive_run hrun, ⟨⟨Kin.withArchive hfollows,
      ⟨h.shaped, hshelved, h.points.stored hc hf r, ho.pushed r⟩,
      .replaced ?_ hindex hsub (k.volumes_perm hc) (List.Perm.refl _)⟩, ?_⟩⟩
    · exact Nat.le_of_eq hfollows.nextIndex.symm
    · intro e he
      rw [Stock.lasting, hc, Volume.allEntries_append, Option.toList_some] at he
      rw [Stock.lasting, Volume.allEntries_append, Option.toList_some]
      rcases List.mem_append.mp he with he | he
      · refine List.mem_append_left _ ?_
        rw [Volume.allEntries, List.flatMap_singleton] at he ⊢
        exact hsub he
      · exact List.mem_append_right _ he

theorem published (h : Located s k) (hb : b < s.self.dimensions.buckets) {r : Record}
    (hr : r.key = bucketKey b) {location : Int64} (hf : k.fresh = some ⟨r, location⟩)
    (ht : s'.self.table = s.self.table.set b location) (hk : Kin 1 0 s s')
    (ha : s'.self.archive = s.self.archive) (hd : s'.host.disk = s.host.disk) :
    Keeps 1 0 s k s' { k with shown := k.shown ++ [⟨r, location⟩], fresh := none } where
  kin := hk
  located := by
    refine ⟨hk.dimensions ▸ h.shaped, ?_, ?_, hk.dimensions ▸ h.outdated⟩
    · rw [ha, hd]
      exact h.shelved
    · rw [hk.dimensions, ht]
      exact h.points.published h.shaped.buckets_le hb hr hf
  evolves := .of_perm (Nat.le_of_eq (by rw [ha])) (List.Perm.refl _)
  lasts := fun _ hm => hm

theorem endWriting_run (h : Located s k) (hc : k.current = some v) (hf : k.fresh = none) :
    ∃ f s', s.inArchive (Archive.endWriting 0 (Int64.ofInt s.self.dimensions.buckets)) = (.ok (), s') ∧
      Keeps 0 0 s k s' { k with line := k.line ++ [v.finished f], current := none, shown := [] } ∧
      Resembles s.self.dimensions.buckets k
        { k with line := k.line ++ [v.finished f], current := none, shown := [] } := by
  have hs := h.shelved
  have ho := h.outdated
  rw [hc] at hs ho
  obtain ⟨f, t, hrun, hmin, hmax, hsession, hfollows, hshelved⟩ := Archive.Shelved.endWriting_run
    (s := ⟨s.self.archive, s.host⟩) hs 0 (Int64.ofInt s.self.dimensions.buckets)
  have hindex : (v.finished f).segment.index = v.segment.index := rfl
  have hperm : (v.finished f :: (k.line ++ k.old)).Perm
      ([] ++ ((k.line ++ [v.finished f]) ++ k.old)) := by
    rw [List.nil_append, List.append_assoc]
    exact List.perm_middle.symm
  have hranked : Segment.Ranked ((k.line ++ [v.finished f]).map Volume.segment) := by
    have hr := hshelved.ranked
    rwa [Option.toList_none, List.append_nil] at hr
  have horigin : (v.finished f).segment.origin = v.segment.origin := by
    have hfinished : (v.finished f).segment.footer = some f := rfl
    have hstored := hshelved.kept.holds.stored (v.finished f) (by simp)
    rw [Segment.origin_of_footer hfinished, ((hstored.footer f rfl).session hsession).1]
    simp [Segment.origin, hs.unfinished v rfl, Volume.finished]
  refine ⟨f, _, MapState.inArchive_run hrun, ⟨⟨Kin.withArchive hfollows,
    ⟨h.shaped, hshelved, h.points.ended hc hf hmin hmax, ho.ended hsession hranked horigin⟩,
    .replaced ?_ hindex ?_ (k.volumes_perm hc) hperm⟩, ?_⟩,
    .of_subset (h.points.live_ended hc hf f) ?_⟩
  · exact Nat.le_of_eq hfollows.nextIndex.symm
  · exact fun _ he => he
  · intro e he
    rw [Stock.lasting, hc, Volume.allEntries_append, Option.toList_some] at he
    rw [Stock.lasting, Option.toList_none, List.nil_append, Volume.allEntries_append]
    rcases List.mem_append.mp he with he | he
    · exact List.mem_append_right _ he
    · exact List.mem_append_left _ he
  · have hshut : Volume.allEntries (v.finished f :: (k.line ++ k.old)) =
        Volume.allEntries (v :: (k.line ++ k.old)) := rfl
    exact fun e he => Volume.allEntries_mono (k.volumes_perm hc).symm.subset
      (hshut ▸ Volume.allEntries_mono hperm.symm.subset he)

theorem prepareMerge_cases (h : Located s k) (hold : k.old = []) (hmoves : k.moves = [])
    (hnext : s.self.archive.nextIndex.toNat + 1 < 0x100000000) {files : List Segment}
    (hfiles : files <+: k.line.map Volume.segment) (htwo : 2 ≤ files.length) :
    (∃ e s', s.inArchive (Archive.prepareMerge files) = (.error e, s') ∧ Keeps 0 1 s k s' k ∧
      (e = .indicesExhausted ↔ Location.maxSegments ≤ s.self.archive.nextIndex.toNat) ∧
      Disk.Within (Archive.Halted s.self.archive k.volumes s.host.disk s'.host.disk)
        s.host.disk s'.host.disk) ∨
    ∃ m s' line old, s.inArchive (Archive.prepareMerge files) = (.ok (some m), s') ∧
      m.inputs = old.map Volume.segment ∧
      s.self.archive.nextIndex.toNat < Location.maxSegments ∧
      Volume.allEntries k.volumes ⊆
        Volume.allEntries { k with line := line, old := old, moves := m.moves }.volumes ∧
      Brings 0 1 s k s' { k with line := line, old := old, moves := m.moves } ∧
      Rewrites s.self.dimensions.buckets k { k with line := line, old := old, moves := m.moves } ∧
      Disk.Within (Archive.Halted s.self.archive k.volumes s.host.disk s'.host.disk)
        s.host.disk s'.host.disk := by
  have hs := h.shelved
  rw [hold] at hs
  have hne : files ≠ [] := fun he => by
    rw [he] at htwo
    cases htwo
  rcases Archive.Shelved.prepareMerge_front (s := ⟨s.self.archive, s.host⟩) hs hnext hfiles hne with
    ⟨e, t, hrun, hf, hshelved, he, hleft⟩ | ⟨m, t, run, back, newest, out, hrun, hlength, hp⟩
  · refine .inl ⟨e, _, MapState.inArchive_run hrun, ⟨⟨Kin.withArchive hf,
      ⟨h.shaped, ?_, h.points, h.outdated⟩, .of_perm ?_ (List.Perm.refl _)⟩, fun _ hm => hm⟩, he, ?_⟩
    · rw [hold]
      exact hshelved
    · exact Nat.le_trans (Nat.le_succ _) (Nat.le_of_eq hf.nextIndex.symm)
    · rw [Stock.volumes, hold]
      exact hleft
  · have hleft := hp.left
    obtain ⟨w, hlast, hw⟩ := hp.last
    have hwrun := List.mem_of_getLast? hlast
    have hline : k.line = [] ++ (run ++ back) := hp.line_eq
    have hnextle : s.self.archive.nextIndex.toNat ≤ t.self.nextIndex.toNat :=
      Nat.le_trans (Nat.le_succ _) (Nat.le_of_eq hp.follows.nextIndex.symm)
    have hranges : ∀ o ∈ out.toList, ∀ f, o.segment.footer = some f →
        f.minKey = newest.minKey ∧ f.maxKey = newest.maxKey := by
      intro o ho f hf
      obtain ⟨g, hg, -, hmin, hmax⟩ := (hp.merged o (Option.mem_toList.mp ho)).1.footer
      rw [hg] at hf
      cases hf
      exact ⟨hmin, hmax⟩
    have hperm : (out.toList ++ k.volumes).Perm
        (k.current.toList ++ (([] ++ (out.toList ++ back)) ++ run.reverse)) := by
      have hreplace := Archive.perm_replace out.toList k.current.toList [] run back
      rw [Stock.volumes, hold, hp.line_eq]
      exact hreplace.trans (((List.reverse_perm run).symm.append_left _).append_left _)
    have houtdated := (hp.outdated hs (by
      rw [← List.length_map (f := Volume.segment), hlength]
      exact htwo)).reverse
    obtain ⟨hmin, hmax⟩ := h.points.spanning w (by simp [hline, hwrun]) newest hw
    rw [hmin, hmax] at houtdated
    refine .inr ⟨m, _, [] ++ (out.toList ++ back), run.reverse,
      MapState.inArchive_run hrun, by rw [hp.inputs, List.map_reverse], hp.room, fun e he => ?_,
      ⟨Kin.withArchive hp.follows, ⟨h.shaped, hp.shelved.perm_old (List.reverse_perm run).symm,
        h.points.prepared h.shaped.buckets_le hmoves hline hwrun hw hp.relocates hranges,
        houtdated⟩, ?_⟩, ⟨fun b hb => ?_, rfl, fun e he => ?_⟩, ?_⟩
    · exact Volume.allEntries_mono hperm.subset (by
        rw [Volume.allEntries_append]
        exact List.mem_append_right _ he)
    · cases hout : out with
      | none =>
          rw [hout] at hperm
          exact .of_perm hnextle hperm
      | some o =>
          rw [hout] at hperm
          exact .added hnextle (hp.merged o hout).2 hperm
    · obtain ⟨hlow, hhigh⟩ := pageKey_bucketKey h.shaped.buckets_le hb
      rw [← hmin] at hlow
      rw [← hmax] at hhigh
      rw [hline]
      simp only [Volume.allEntries_append, Entry.latest_append, Option.map_or,
        hp.relocates.latest_eq hlow hhigh]
    · have he := Volume.allEntries_mono hperm.symm.subset he
      rw [Volume.allEntries_append] at he
      rcases List.mem_append.mp he with he | he
      · obtain ⟨o, ho, hr⟩ := hp.relocates.copied e he
        refine ⟨o, ?_, hr⟩
        obtain ⟨u, hu, hou⟩ := Volume.mem_allEntries.mp ho
        exact Volume.mem_allEntries.mpr ⟨u, by simp [Stock.volumes, hline, hu], hou⟩
      · exact ⟨e, he, rfl⟩
    · rw [Stock.volumes, hold]
      exact hleft

/-- A move is published unless its bucket has been written again. -/
theorem relocated (h : Located s k) {m : Relocation} {moves : List Relocation}
    (hmoves : k.moves = m :: moves) :
    Keeps 0 0 s k { s with self := (s.self.relocate m).1 } { k with moves := moves } := by
  have hapart : ∀ e ∈ k.live, ∀ f ∈ Volume.allEntries k.old, e.location ≠ f.location := by
    intro e he f hf hl
    have hlasting : e ∈ Volume.allEntries k.lasting := by
      rw [Stock.lasting, Volume.allEntries_append, h.points.written]
      rcases List.mem_append.mp he with hm | hm <;> simp [hm]
    obtain ⟨u, hu, heu⟩ := Volume.mem_allEntries.mp hlasting
    obtain ⟨w, hw, hfw⟩ := Volume.mem_allEntries.mp hf
    have happ : k.volumes = k.lasting ++ k.old := by
      rw [Stock.volumes, Stock.lasting, List.append_assoc]
    have hholds := h.holds
    rw [happ] at hholds
    have hcross := (List.pairwise_append.mp hholds.apart).2.2 u hu w hw
    obtain ⟨rfl, -⟩ := hholds.entry_unique (List.mem_append_left _ hu) (List.mem_append_right _ hw)
      heu hfw hl
    exact hcross.index rfl
  have hzero : ∀ f ∈ Volume.allEntries k.old, f.location ≠ 0 := by
    intro f hf
    obtain ⟨w, hw, hfw⟩ := Volume.mem_allEntries.mp hf
    have hmem : w ∈ k.volumes := List.mem_append_right _ (List.mem_append_right _ hw)
    exact ((h.holds.stored w hmem).location hfw).2
  have hpoints := h.points.relocated h.shaped.buckets_le hapart hzero hmoves
  rw [PagedMap.relocate_eq]
  exact ⟨⟨⟨rfl, rfl, rfl, rfl, Archive.Follows.refl _⟩, ⟨h.shaped, h.shelved, hpoints, h.outdated⟩,
    .of_perm (Nat.le_refl _) (List.Perm.refl _)⟩, fun _ hm => hm⟩

theorem removeSegment_run (h : Located s k) (hmoves : k.moves = []) {old : List Volume}
    (hold : k.old = v :: old) :
    ∃ s', s.inArchive (Archive.removeSegment v.segment) = (.ok (), s') ∧
      Keeps 0 0 s k s' { k with old := old } := by
  have hs := h.shelved
  have ho := h.outdated
  rw [hold] at hs ho
  obtain ⟨t, hrun, hf, hshelved⟩ := Archive.Shelved.removeSegment_run
    (s := ⟨s.self.archive, s.host⟩) hs
  refine ⟨_, MapState.inArchive_run hrun, ⟨⟨Kin.withArchive hf,
    ⟨h.shaped, hshelved, h.points.removed hmoves (hold ▸ List.subset_cons_self ..), ho.removed⟩,
    .removed (v := v) h.holds ?_ ?_⟩, fun _ hm => hm⟩⟩
  · exact Nat.le_of_eq hf.nextIndex.symm
  · rw [Stock.volumes, Stock.volumes, hold, ← List.append_assoc, ← List.append_assoc]
    exact List.perm_middle

theorem concludeMerge_run (h : Located s k) (m : Merge) :
    ∃ s', s.inArchive (Archive.concludeMerge m) = (.ok (), s') ∧ Keeps 0 0 s k s' k := by
  obtain ⟨t, hrun, hf, hshelved⟩ := Archive.Shelved.concludeMerge_run
    (s := ⟨s.self.archive, s.host⟩) h.shelved m
  exact ⟨_, MapState.inArchive_run hrun, ⟨⟨Kin.withArchive hf,
    ⟨h.shaped, hshelved, h.points, h.outdated⟩,
    .of_perm (Nat.le_of_eq hf.nextIndex.symm) (List.Perm.refl _)⟩, fun _ hm => hm⟩⟩

end Located

end MeteredStorage
