import Mathlib.Data.List.Dedup
import MeteredStorage.Proofs.PagedMap.Reaching

namespace MeteredStorage

theorem Archive.writer_of_startWriting {s s' : Hosted Archive} (h : startWriting s = (.ok (), s')) :
    ∃ w, s'.self.writer = some w ∧ w.offset = 0 := by
  by_cases hactive : s.self.writer.isSome
  · simp [startWriting, hactive] at h
    cases h
  · rcases hcreate : createSegment s with ⟨_ | x, t⟩
    · simp [startWriting, hactive, hcreate] at h
      cases h
    · simp only [startWriting, Task.bind_run, Task.get_run, if_neg hactive, hcreate,
        Hosted.report_run, Hosted.update_run] at h
      cases h
      exact ⟨⟨x, 0, 0⟩, rfl, rfl⟩

theorem MapState.of_inArchive {K α : Type} {s s' : MapState K} {task : ArchiveTask α}
    {r : Except ArchiveError α} (h : s.inArchive task = (r, s')) :
    task ⟨s.self.archive, s.host⟩ = (r, ⟨s'.self.archive, s'.host⟩) := by
  cases h
  rfl

variable {K : Type}

def Bindings.distinct [DecidableEq K] (bs : Bindings K) : Nat := (bs.map Prod.fst).dedup.length

def HasRoom (s : MapState K) (n : Nat) : Prop :=
  ∀ w, s.self.archive.writer = some w → w.offset + n * Page.recordSize ≤ Location.maxOffset

theorem HasRoom.congr {s s' : MapState K} (h : s'.self.archive.writer = s.self.archive.writer)
    (n : Nat) : HasRoom s' n ↔ HasRoom s n := by
  rw [HasRoom, HasRoom, h]

theorem hasRoom_iff {s : MapState K} {w : Writer} (h : s.self.archive.writer = some w) (n : Nat) :
    HasRoom s n ↔ w.offset + n * Page.recordSize ≤ Location.maxOffset := by
  simp [HasRoom, h]

variable [DecidableEq K]

/-- Changes in any order of the buckets, and in each bucket in any order of the keys. -/
inductive ChangeSet.Reordered : ChangeSet K → ChangeSet K → Prop
  | refl (changes : ChangeSet K) : Reordered changes changes
  | step {changes middle changes' : ChangeSet K} (h : Reordered changes middle)
      (hr : Rearranged middle changes') : Reordered changes changes'

def Versions.Fits (versions : Versions K) (perPage : Nat) (changes : ChangeSet K) : Prop :=
  ∀ c ∈ changes, (versions.changed c.1 c.2).length ≤ perPage

variable [FixedKey K]

def Flush.Needs (base : Versions K) (s : MapState K) (todo : ChangeSet K) : FlushStage K → Prop
  | .opening => (s.inArchive Archive.startWriting).1 = .ok () ∧
      todo.length * Page.recordSize ≤ Location.maxOffset ∧
      base.Fits s.self.dimensions.form.perPage todo
  | .next => HasRoom s todo.length ∧ base.Fits s.self.dimensions.form.perPage todo
  | .reading bucket bs _ => HasRoom s (todo.length + 1) ∧
      base.Fits s.self.dimensions.form.perPage ((bucket, bs) :: todo)
  | .storing _ _ => HasRoom s (todo.length + 1) ∧ base.Fits s.self.dimensions.form.perPage todo
  | .publishing _ _ => HasRoom s todo.length ∧ base.Fits s.self.dimensions.form.perPage todo
  | .closing failure => failure = none

def Flush.Succeeds (base : Versions K) (s : MapState K) :
    Progress (Flush K) (Except MapError Unit) → Prop
  | .running f => Needs base s f.todo f.stage
  | .done r => r = .ok ()

variable {s s' : MapState K} {k : Stock} {base versions : Versions K} {changes past todo : ChangeSet K}
  {counted size : Nat} {buffer : Bytes} {f : Flush K}

namespace Writing

theorem changed_eq (hw : Writing base changes counted s k versions past f) {bucket : Nat}
    {bs : Bindings K} (he : changes = past ++ (bucket, bs) :: todo) :
    versions.changed bucket bs = base.changed bucket bs := by
  have hcollected := hw.collected
  rw [he] at hcollected
  rw [Versions.changed, Versions.changed, hw.versions_eq, Versions.after_of_not_mem hcollected.not_mem]

theorem needs_opening (h : Indexed s k versions)
    (hw : Writing base changes counted s k versions past ⟨todo, size, buffer, .opening⟩)
    (hnext : s.self.archive.nextIndex.toNat + 1 < 0x100000000)
    {p : Progress (Flush K) (Except MapError Unit)}
    (hgo : Flush.step ⟨todo, size, buffer, .opening⟩ s = (p, s')) :
    Flush.Succeeds base s' p ↔ Flush.Needs base s todo .opening := by
  have hstands := hw.stands
  cases hstands with
  | opening hc he =>
      rcases h.startWriting_cases hc hnext with ⟨e, s1, hrun, -⟩ | ⟨v, s1, hrun, -, hkeeps, -⟩
      · simp only [Flush.step, hrun] at hgo
        cases hgo
        simp [Flush.Succeeds, Flush.Needs, hrun]
      · simp only [Flush.step, hrun] at hgo
        cases hgo
        obtain ⟨w, hwriter, hzero⟩ := Archive.writer_of_startWriting (MapState.of_inArchive hrun)
        have hd := hkeeps.kin.dimensions
        simp only [Flush.Succeeds, Flush.withStage, Flush.Needs, hrun, hasRoom_iff hwriter, hzero, hd,
          Nat.zero_add, true_and]

theorem needs_next (h : Indexed s k versions)
    (hw : Writing base changes counted s k versions past ⟨todo, size, buffer, .next⟩)
    {p : Progress (Flush K) (Except MapError Unit)}
    (hgo : Flush.step ⟨todo, size, buffer, .next⟩ s = (p, s')) :
    Flush.Succeeds base s' p ↔ Flush.Needs base s todo .next := by
  have hstands := hw.stands
  cases hstands with
  | next hc hf he =>
      obtain ⟨v, hv⟩ := Option.isSome_iff_exists.mp hc
      have hwriter : s.self.archive.writer = some v.writer := by
        rw [h.shelved.writer, hv]
        rfl
      cases todo with
      | nil =>
          cases hgo
          have hsize := (h.holds.stored v (by simp [Stock.volumes, hv])).size_le
          simp only [Flush.Succeeds, Flush.withStage, Flush.Needs, hasRoom_iff hwriter, true_iff]
          exact ⟨by simpa [Volume.writer] using hsize, by simp [Versions.Fits]⟩
      | cons c todo =>
          cases hgo
          exact Iff.rfl

/-- There is room for the changes on the page, or the flush fails. -/
theorem needs_compose [LawfulKey K] (h : Indexed s k versions) {bucket : Nat} {bs : Bindings K}
    {location : Int64} (hw : Writing base changes counted s k versions past
      ⟨todo, size, buffer, .reading bucket bs location⟩)
    (hl : ((versions bucket).getD []).length ≤ s.self.dimensions.form.perPage)
    (hgo : Flush.compose ⟨todo, size, buffer, .reading bucket bs location⟩ bucket bs
      (Page.image s.self.dimensions.form bucket ((versions bucket).getD [])) s = (f, s')) :
    Flush.Succeeds base s' (.running f) ↔
      Flush.Needs base s todo (.reading bucket bs location) := by
  have hstands := hw.stands
  cases hstands with
  | reading hc hf hb hloaded he =>
      have hchanged := hw.changed_eq he
      rcases Flush.applyChanges_image h.shaped.keySize bucket bs hl with ⟨happly, hroom⟩ |
        ⟨e, page, happly, hfull⟩
      · simp only [Flush.compose, happly] at hgo
        cases hgo
        change (versions.changed bucket bs).length ≤ _ at hroom
        rw [hchanged] at hroom
        simp only [Flush.Succeeds, Flush.withStage, Flush.Needs, Versions.Fits, List.forall_mem_cons,
          hroom, true_and]
      · simp only [Flush.compose, happly] at hgo
        cases hgo
        change _ < (versions.changed bucket bs).length at hfull
        rw [hchanged] at hfull
        simp only [Flush.Succeeds, Flush.withStage, Flush.Needs, Versions.Fits, List.forall_mem_cons,
          reduceCtorEq, false_iff]
        exact fun hneeds => absurd hneeds.2.1 (Nat.not_le.mpr hfull)

theorem needs_reading [LawfulKey K] (h : Indexed s k versions) {bucket : Nat} {bs : Bindings K}
    {location : Int64} (hw : Writing base changes counted s k versions past
      ⟨todo, size, buffer, .reading bucket bs location⟩)
    {p : Progress (Flush K) (Except MapError Unit)}
    (hgo : Flush.step ⟨todo, size, buffer, .reading bucket bs location⟩ s = (p, s')) :
    Flush.Succeeds base s' p ↔ Flush.Needs base s todo (.reading bucket bs location) := by
  have hstands := hw.stands
  cases hstands with
  | reading hc hf hb hloaded he =>
      have hsame {t : MapState K} (ha : Alike s t) (l : Int64) :
          Flush.Needs base t todo (.reading bucket bs l) ↔
            Flush.Needs base s todo (.reading bucket bs location) := by
        simp only [Flush.Needs, HasRoom.congr ha.writer, ha.dimensions]
      rcases hloaded with ⟨hzero, hnone⟩ | ⟨old, hversion, hlength, hne, htraced⟩
      · simp only [Flush.step, Flush.readStep, if_pos hzero] at hgo
        rcases hcompose : Flush.compose ⟨todo, size, buffer, .reading bucket bs location⟩ bucket bs
          (Page.fresh bucket) s with ⟨f, t⟩
        rw [hcompose] at hgo
        cases hgo
        rw [Page.fresh_eq (K := K) s.self.dimensions.form] at hcompose
        refine hw.needs_compose h (by rw [hnone]; exact Nat.zero_le _) ?_
        rw [hnone, Option.getD_none]
        exact hcompose
      · obtain ⟨t, ha, hread | hread⟩ := h.readPage_cases hb hlength htraced hw.buffer
        · simp only [Flush.step, Flush.readStep, if_neg hne, hread] at hgo
          rcases hcompose : Flush.compose ⟨todo, size, buffer, .reading bucket bs location⟩ bucket bs
            (Page.image s.self.dimensions.form bucket old) t with ⟨f, u⟩
          rw [hcompose] at hgo
          cases hgo
          have hcarried := h.alike ha
          refine Iff.trans ?_ (hsame ha location)
          refine (hw.carried h hcarried.toCarries rfl rfl).needs_compose hcarried.indexed ?_ ?_
          · rw [hversion, Option.getD_some, ha.dimensions]
            exact hlength
          · rw [hversion, Option.getD_some, ha.dimensions]
            exact hcompose
        · simp only [Flush.step, Flush.readStep, if_neg hne, hread] at hgo
          cases hgo
          exact hsame ha (s.self.table.get bucket)

theorem needs_storing [LawfulKey K] (h : Indexed s k versions) {bucket : Nat} {page : Bytes}
    (hw : Writing base changes counted s k versions past ⟨todo, size, buffer, .storing bucket page⟩)
    {p : Progress (Flush K) (Except MapError Unit)}
    (hgo : Flush.step ⟨todo, size, buffer, .storing bucket page⟩ s = (p, s')) :
    Flush.Succeeds base s' p ↔ Flush.Needs base s todo (.storing bucket page) := by
  have hstands := hw.stands
  cases hstands with
  | @storing bucket bs hc hf hb hl he =>
      obtain ⟨v, hv⟩ := Option.isSome_iff_exists.mp hc
      have hwriter : s.self.archive.writer = some v.writer := by
        rw [h.shelved.writer, hv]
        rfl
      let r : Record := pageRecord s.self.dimensions.form bucket (versions.changed bucket bs)
      have hdata : r.data.length = pageSize := Page.length_image h.shaped.keySize hl
      have hsize : r.size = Page.recordSize := by rw [Record.size, hdata, Page.recordSize]
      have hfits : r.Fits := by
        rw [Record.Fits, hdata]
        decide
      rcases h.storing_cases (f := ⟨todo, size, buffer, .storing bucket
        (Page.image s.self.dimensions.form bucket (versions.changed bucket bs))⟩) hf rfl with
        ⟨e, hstep, hfull⟩ | ⟨u, location, s1, hu, hstep, hkeeps⟩
      · rw [hstep] at hgo
        cases hgo
        have hover := hfull v hv hfits
        change Location.maxOffset < v.dataSize + r.size at hover
        rw [hsize] at hover
        simp only [Flush.Succeeds, Flush.withStage, Flush.Needs, hasRoom_iff hwriter, reduceCtorEq,
          false_iff, Volume.writer]
        rintro ⟨hroom, -⟩
        have hmul := Nat.succ_mul todo.length Page.recordSize
        rw [← Nat.succ_eq_add_one] at hroom
        omega
      · rw [hstep] at hgo
        cases hgo
        rw [hv] at hu
        cases hu
        have hafter : s'.self.archive.writer = some (v.push r).writer := hkeeps.located.shelved.writer
        have hd := hkeeps.kin.dimensions
        simp only [Flush.Succeeds, Flush.withStage, Flush.Needs, hasRoom_iff hwriter,
          hasRoom_iff hafter, hd, Volume.writer, Volume.dataSize_push, hsize, Nat.succ_mul]
        have hshift : v.dataSize + Page.recordSize + todo.length * Page.recordSize =
            v.dataSize + (todo.length * Page.recordSize + Page.recordSize) := by omega
        rw [hshift]

theorem needs_publishing {bucket : Nat} {location : Int64} {p : Progress (Flush K) (Except MapError Unit)}
    (hgo : Flush.step ⟨todo, size, buffer, .publishing bucket location⟩ s = (p, s')) :
    Flush.Succeeds base s' p ↔ Flush.Needs base s todo (.publishing bucket location) := by
  cases hgo
  exact Iff.rfl

theorem needs_closing (h : Indexed s k versions) {failure : Option MapError}
    (hw : Writing base changes counted s k versions past ⟨todo, size, buffer, .closing failure⟩)
    {p : Progress (Flush K) (Except MapError Unit)}
    (hgo : Flush.step ⟨todo, size, buffer, .closing failure⟩ s = (p, s')) :
    Flush.Succeeds base s' p ↔ Flush.Needs base s todo (.closing failure) := by
  have hstands := hw.stands
  cases hstands with
  | closing hc hf hp he =>
      obtain ⟨v, hv⟩ := Option.isSome_iff_exists.mp hc
      obtain ⟨footer, s1, hstep, -⟩ := h.closing_run
        (f := ⟨todo, size, buffer, .closing failure⟩) hv hf rfl
      rw [hstep] at hgo
      cases hgo
      cases failure <;> simp [Flush.Succeeds, Flush.Needs]

/-- No step of a flush changes whether it will succeed. -/
theorem succeeds_step [LawfulKey K] (h : Indexed s k versions)
    (hw : Writing base changes counted s k versions past f)
    (hnext : s.self.archive.nextIndex.toNat + f.wants < 0x100000000)
    {p : Progress (Flush K) (Except MapError Unit)} (hgo : f.step s = (p, s')) :
    Flush.Succeeds base s' p ↔ Flush.Succeeds base s (.running f) := by
  obtain ⟨todo, size, buffer, stage⟩ := f
  cases stage with
  | opening => exact hw.needs_opening h hnext hgo
  | next => exact hw.needs_next h hgo
  | reading bucket bs location => exact hw.needs_reading h hgo
  | storing bucket page => exact hw.needs_storing h hgo
  | publishing bucket location => exact needs_publishing hgo
  | closing failure => exact hw.needs_closing h hgo

theorem succeeds_run [LawfulKey K] (h : Indexed s k versions)
    (hw : Writing base changes counted s k versions past f)
    (hnext : s.self.archive.nextIndex.toNat + f.wants < 0x100000000) :
    (f.run s).1 = .ok () ↔ Flush.Succeeds base s (.running f) := by
  induction f, s using Flush.run.induct generalizing k versions past with
  | case1 f s r s' hstep =>
      rw [Flush.run_of_done hstep]
      exact hw.succeeds_step h hnext hstep
  | case2 f s f' s' hstep ih =>
      obtain ⟨p, s1, hgo, ⟨k', versions', past', written, hspares, -, -, -, -, hwrites⟩, -⟩ :=
        hw.step h hnext
      rw [hstep] at hgo
      cases hgo
      cases hwrites with
      | running hw' =>
          rw [Flush.run_of_running hstep, ← hw.succeeds_step h hnext hstep]
          refine ih hspares.indexed hw' ?_
          rw [hspares.kin.follows.nextIndex, Flush.wants_step hstep]
          exact hnext

end Writing

/--
What the end of a session needs: if there are changes, the archive can open a session and has room for
the pages of all changed buckets, and no page gets more keys than it can have entries.
-/
def Accepts (s : MapState K) (versions : Versions K) (changes : ChangeSet K) : Prop :=
  changes = [] ∨
    ((s.inArchive Archive.startWriting).1 = .ok () ∧
      changes.length * Page.recordSize ≤ Location.maxOffset ∧
      ∀ c ∈ changes, Bindings.distinct ((versions c.1).getD [] ++ c.2) ≤ s.self.dimensions.form.perPage)

omit [FixedKey K] in
theorem Versions.length_changed {bucket : Nat} (hn : (((versions bucket).getD []).map Prod.fst).Nodup)
    (bs : Bindings K) :
    (versions.changed bucket bs).length = Bindings.distinct ((versions bucket).getD [] ++ bs) := by
  have hkeys := ChangeSet.nodup_setValues hn bs
  rw [← List.length_map (f := Prod.fst), Bindings.distinct]
  refine ((List.perm_ext_iff_of_nodup hkeys (List.nodup_dedup _)).mpr fun key => ?_).length_eq
  rw [List.mem_dedup, List.map_append, List.mem_append]
  exact ChangeSet.mem_keys_setValues

theorem Indexed.fits_iff [LawfulKey K] (h : Indexed s k versions) (hc : Collected s.self.dimensions changes) :
    versions.Fits s.self.dimensions.form.perPage changes ↔ ∀ c ∈ changes,
      Bindings.distinct ((versions c.1).getD [] ++ c.2) ≤ s.self.dimensions.form.perPage := by
  refine forall₂_congr fun c hm => ?_
  rw [Versions.length_changed]
  cases hv : versions c.1 with
  | none => exact List.Pairwise.nil
  | some bs => exact (h.resident (hc.bounded c hm) hv).keys

variable {line : List Volume}

/-- A session succeeds exactly if its changes are accepted. -/
theorem Idle.endWriting_iff [LawfulKey K] (h : Idle s line versions) (hi : HasIndices s)
    (hs : s.self.changes = some changes) :
    (PagedMap.endWriting s).1 = .ok () ↔ Accepts s versions changes := by
  have hc := h.collected changes hs
  cases changes with
  | nil =>
      refine iff_of_true ?_ (.inl rfl)
      simp only [PagedMap.endWriting, Flush.start, hs]
  | cons change changes =>
      let t := s.update fun m => { m with changes := none }
      let f : Flush K := ⟨change :: changes, (change :: changes).length, Bytes.zeros pageSize, .opening⟩
      have hend : PagedMap.endWriting s = f.run t := by
        simp only [PagedMap.endWriting, Flush.start, hs]
        rfl
      have ht : Idle t line versions := h.collecting ⟨rfl, rfl, rfl, rfl⟩ rfl rfl rfl fun _ he => by cases he
      have hw : Writing versions (change :: changes) t.self.counts.written t
          ⟨line, [], none, [], none, []⟩ versions [] f :=
        ⟨rfl, rfl, Bytes.length_zeros _, hc, .opening rfl rfl⟩
      rw [hend, hw.succeeds_run ht.indexed hi.no_wrap, Accepts, ← h.indexed.fits_iff hc]
      simp only [Flush.Succeeds, Flush.Needs, f, reduceCtorEq, false_or]
      exact Iff.rfl

theorem Idle.find_endWriting [LawfulKey K] (h : Idle s line versions) (hi : HasIndices s)
    (hs : s.self.changes = some changes) (hok : (PagedMap.endWriting s).1 = .ok ()) (key : K)
    (notFound : Int64) :
    (PagedMap.find key notFound (PagedMap.endWriting s).2).1 =
      .ok (((changes.value? (s.self.place key).2 key).or
        ((versions (s.self.place key).2).bind fun bs => bs.lookup key)).getD notFound) := by
  obtain ⟨r, s1, line', past, hgo, h1, hremains, -, hwhole, -⟩ := h.endWriting_run hi.no_wrap
  rw [hgo] at hok ⊢
  obtain ⟨s2, hfind, -⟩ := h1.indexed.find_run key notFound
  have hpast : past = changes := by
    rw [hwhole hok, hs]
    rfl
  rw [hfind, place_of_remains hremains, hpast, Versions.lookup_after (h.collected changes hs)]

section Reordered

variable {changes' : ChangeSet K} {d : Dimensions}

omit [FixedKey K] in
theorem Bindings.distinct_perm {bs bs' : Bindings K} (h : bs.Perm bs') : distinct bs = distinct bs' :=
  (h.map Prod.fst).dedup.length_eq

omit [FixedKey K] in
theorem Accepts.rearranged (h : ChangeSet.Rearranged changes changes') :
    Accepts s versions changes' ↔ Accepts s versions changes := by
  cases h with
  | buckets hp =>
      have hnil : changes' = [] ↔ changes = [] :=
        ⟨fun he => (he ▸ hp).eq_nil, fun he => (he ▸ hp).symm.eq_nil⟩
      simp only [Accepts, hnil, hp.length_eq, hp.mem_iff]
  | @keys front rest bucket bs bs' hp =>
      have hd : Bindings.distinct ((versions bucket).getD [] ++ bs') =
          Bindings.distinct ((versions bucket).getD [] ++ bs) :=
        (Bindings.distinct_perm (hp.append_left _)).symm
      simp [Accepts, or_imp, forall_and, hd]

omit [FixedKey K] in
theorem ChangeSet.Reordered.accepts (h : ChangeSet.Reordered changes changes') :
    Accepts s versions changes' ↔ Accepts s versions changes := by
  induction h with
  | refl => exact Iff.rfl
  | step _ hr ih => exact (Accepts.rearranged hr).trans ih

theorem Collected.reordered (h : Collected d changes) (hr : changes.Reordered changes') :
    Collected d changes' ∧ ∀ bucket key, changes'.value? bucket key = changes.value? bucket key := by
  induction hr with
  | refl => exact ⟨h, fun _ _ => rfl⟩
  | step _ hr ih =>
      exact ⟨ih.1.rearranged hr, fun bucket key =>
        (ih.1.value?_rearranged hr bucket key).trans (ih.2 bucket key)⟩

end Reordered

def MapState.reorder (s : MapState K) (changes : ChangeSet K) : MapState K :=
  s.update fun m => { m with changes := some changes }

variable [LawfulKey K] {directory : Path} {name : String} {mapSize : UInt64}
  {changes' : ChangeSet K}

/--
Whatever the order in which a session writes its buckets and the changes of each of them, it succeeds
exactly if its changes are accepted, and then every lookup finds the same. The map has had indices left
before each of its steps, and has them before the session ends: refused ones count, and nothing is said of
a map whose next index has come within three values of the end of its 32 bits or has run over.
-/
theorem Reach.endWriting_any_order (h : Reach K directory name mapSize s) (hi : HasIndices s)
    (hs : s.self.changes = some changes) (hr : changes.Reordered changes') :
    ∃ versions : Versions K, (∀ b < s.self.dimensions.buckets, Publishes s b (versions b)) ∧
      ((PagedMap.endWriting s).1 = .ok () ↔ Accepts s versions changes) ∧
      ((PagedMap.endWriting (s.reorder changes')).1 = .ok () ↔ (PagedMap.endWriting s).1 = .ok ()) ∧
      ((PagedMap.endWriting s).1 = .ok () → ∀ key notFound, ∃ value,
        (PagedMap.find key notFound (PagedMap.endWriting s).2).1 = .ok value ∧
        (PagedMap.find key notFound (PagedMap.endWriting (s.reorder changes')).2).1 = .ok value) := by
  obtain ⟨line, versions, hidle⟩ := h.idle
  obtain ⟨hcollected, hvalues⟩ := (hidle.collected changes hs).reordered hr
  have hidle' : Idle (s.reorder changes') line versions := by
    refine hidle.collecting ⟨rfl, rfl, rfl, rfl⟩ rfl rfl rfl fun cs hc => ?_
    cases hc
    exact hcollected
  have hends := hidle.endWriting_iff hi hs
  have hends' : (PagedMap.endWriting (s.reorder changes')).1 = .ok () ↔
      (PagedMap.endWriting s).1 = .ok () := by
    rw [hidle'.endWriting_iff hi rfl, hends]
    exact hr.accepts
  refine ⟨versions, fun b hb => hidle.indexed.publishes hb, hends, hends', fun hok key notFound => ?_⟩
  refine ⟨_, hidle.find_endWriting hi hs hok key notFound, ?_⟩
  rw [hidle'.find_endWriting hi rfl (hends'.mpr hok), hvalues]
  rfl

/-- Two buckets are written in the other order. -/
theorem endWriting_any_order_reversed :
    ∃ (s : MapState UInt64) (changes : ChangeSet UInt64), Reach UInt64 [] "x" 100 s ∧
      s.self.changes = some changes ∧ changes.reverse ≠ changes ∧
      (PagedMap.endWriting (s.reorder changes.reverse)).1 = .ok () ∧
      ∀ key notFound, ∃ value,
        (PagedMap.find key notFound (PagedMap.endWriting s).2).1 = .ok value ∧
        (PagedMap.find key notFound (PagedMap.endWriting (s.reorder changes.reverse)).2).1 =
          .ok value := by
  have hcheck : (PagedMap.scenario UInt64 "x" 100 [.start, .put 7 1, .finish, .start, .put 8 2,
      .put 7 3]).any fun s => decide (s.self.archive.nextIndex.toNat + 2 < 0x100000000) &&
        (s.self.changes.any fun changes => decide (changes.reverse ≠ changes)) &&
        (PagedMap.endWriting s).1.toBool := by
    decide +kernel
  obtain ⟨s, hs, hgo⟩ := (Option.any_eq_true ..).mp hcheck
  simp only [Bool.and_eq_true, decide_eq_true_eq, Option.any_eq_true] at hgo
  obtain ⟨⟨hi, changes, hchanges, hne⟩, hok⟩ := hgo
  have hr : Reach UInt64 [] "x" 100 s := reach_of_scenario hs
  have hreversed : ChangeSet.Reordered changes changes.reverse :=
    .step (.refl changes) (.buckets (List.reverse_perm changes).symm)
  obtain ⟨versions, -, -, hsame, hfinds⟩ := Reach.endWriting_any_order hr hi hchanges hreversed
  have hok' : (PagedMap.endWriting s).1 = .ok () := by
    cases hend : (PagedMap.endWriting s).1 with
    | ok => rfl
    | error e =>
        rw [hend] at hok
        cases hok
  exact ⟨s, changes, hr, hchanges, hne, hsame.mpr hok', hfinds hok'⟩

/-- Under a name with a separator a session can fail although every page has room for its keys. -/
theorem endWriting_fails_with_room :
    ∃ (s : MapState UInt64) (versions : Versions UInt64) (changes : ChangeSet UInt64),
      Reach UInt64 [] "./x" 100 s ∧ s.self.changes = some changes ∧
      (∀ b < s.self.dimensions.buckets, Publishes s b (versions b)) ∧
      (∀ c ∈ changes, Bindings.distinct ((versions c.1).getD [] ++ c.2) ≤
        s.self.dimensions.form.perPage) ∧
      (PagedMap.endWriting s).1 ≠ .ok () := by
  have hcheck : (PagedMap.scenario UInt64 "./x" 100 [.start, .put 7 1, .finish, .reopen, .start,
      .put 8 2]).any fun s => decide (s.self.table.slots = []) &&
        (s.self.changes.any fun changes => changes.all fun c =>
          decide (Bindings.distinct c.2 ≤ s.self.dimensions.form.perPage)) &&
        !(PagedMap.endWriting s).1.toBool := by
    decide +kernel
  obtain ⟨s, hs, hgo⟩ := (Option.any_eq_true ..).mp hcheck
  simp only [Bool.and_eq_true, decide_eq_true_eq, Option.any_eq_true, List.all_eq_true,
    Bool.not_eq_true'] at hgo
  obtain ⟨⟨hslots, changes, hchanges, hroom⟩, hfails⟩ := hgo
  refine ⟨s, fun _ => none, changes, reach_of_scenario hs, hchanges, fun b _ => ?_, hroom, fun hok => ?_⟩
  · simp [Publishes, PageTable.get, hslots]
  · rw [hok] at hfails
    cases hfails

end MeteredStorage
