import MeteredStorage.Proofs.Archive.Abandonment
import MeteredStorage.Proofs.PagedMap.Entries
import MeteredStorage.Proofs.PagedMap.Rebuilding

namespace MeteredStorage

def MapError.bucket? : MapError → Option Int
  | .pageFull index => some index.toInt
  | .pageMismatch bucket _ => some bucket
  | .pageCorrupt bucket _ => some bucket
  | _ => none

theorem Page.bucket?_of_validate {f : PageForm} {bucket : Nat} {page : Bytes} {e : MapError}
    (h : validate f bucket page = .error e) : e.bucket? = some (bucket : Int) := by
  unfold validate at h
  split at h
  · cases h
    rfl
  · split at h
    · cases h
      rfl
    · cases h

def PageRead.ofExcept : Except MapError Bytes → PageRead
  | .ok bytes => .page bytes
  | .error e => .failed e

namespace PagedMap

variable {K : Type} {s t : MapState K} {b : Nat} {buffer page : Bytes}

def pageOf (s : MapState K) (bucket : Nat) (buffer : Bytes) : Except MapError Bytes :=
  match s.self.archive.fetch s.host.disk (s.self.table.get bucket) .data buffer.length with
  | .error e => .error (.archive e)
  | .ok bytes =>
    let page := Bytes.overlay 0 bytes buffer
    if bytes.length ≠ pageSize then .error (.pageMismatch bucket (Page.index page))
    else (Page.validate s.self.dimensions.form bucket page).map fun _ => page

theorem readPage_slot (s : MapState K) (b : Nat) (buffer : Bytes) :
    (readPage s b (s.self.table.get b) buffer).1 = .ofExcept (pageOf s b buffer) := by
  cases hf : s.self.archive.fetch s.host.disk (s.self.table.get b) .data buffer.length with
  | error e =>
      have hgo : Archive.readInto (s.self.table.get b) .data buffer ⟨s.self.archive, s.host⟩ =
          (.error e, ⟨s.self.archive, s.host⟩) := by
        simp [Archive.readInto, hf]
      rw [readPage, MapState.inArchive_run hgo, pageOf, hf]
      cases e <;> simp [MapState.withArchive, PageRead.ofExcept]
  | ok bytes =>
      have hgo : Archive.readInto (s.self.table.get b) .data buffer ⟨s.self.archive, s.host⟩ =
          (.ok (bytes.length, Bytes.overlay 0 bytes buffer), ⟨{ s.self.archive with counts :=
            { s.self.archive.counts with reads := s.self.archive.counts.reads + 1 } }, s.host⟩) := by
        simp [Archive.readInto, hf]
      rw [readPage, MapState.inArchive_run hgo, pageOf, hf]
      simp only [checkPage, MapState.withArchive]
      split
      · rfl
      · cases Page.validate s.self.dimensions.form b (Bytes.overlay 0 bytes buffer) <;> rfl

theorem pageOf_eq_ok (hb : buffer.length = pageSize) : pageOf s b buffer = .ok page ↔
    s.self.archive.fetch s.host.disk (s.self.table.get b) .data pageSize = .ok page ∧
      Page.Valid s.self.dimensions.form b page := by
  have hover {bytes : Bytes} (hl : bytes.length = pageSize) : Bytes.overlay 0 bytes buffer = bytes :=
    Bytes.overlay_all (hl.trans hb.symm)
  rw [pageOf, hb]
  constructor
  · intro h
    split at h
    · cases h
    · rename_i bytes hf
      dsimp only at h
      split at h
      · cases h
      · rename_i hl
        have hl : bytes.length = pageSize := Decidable.of_not_not hl
        rw [hover hl] at h
        cases hv : Page.validate s.self.dimensions.form b bytes with
        | error e =>
            rw [hv] at h
            cases h
        | ok =>
            rw [hv] at h
            cases h
            exact ⟨hf, Page.valid_of_validate hl hv⟩
  · rintro ⟨hf, hv⟩
    simp only [hf, ne_eq, hv.length, not_true_eq_false, if_false, hover hv.length, hv.validate]
    rfl

/-- If a page cannot be read it is at fault itself, or the archive is. -/
theorem bucket_of_pageOf {e : MapError} (h : pageOf s b buffer = .error e) {i : Int}
    (hi : e.bucket? = some i) : i = b := by
  rw [pageOf] at h
  split at h
  · cases h
    cases hi
  · dsimp only at h
    split at h
    · cases h
      exact (Option.some.inj hi).symm
    · rename_i bytes _ _
      cases hv : Page.validate s.self.dimensions.form b (Bytes.overlay 0 bytes buffer) with
      | error e' =>
          rw [hv] at h
          cases h
          exact Option.some.inj (hi.symm.trans (Page.bucket?_of_validate hv))
      | ok =>
          rw [hv] at h
          cases h

variable [FixedKey K]

/-- A lookup reads the page of the bucket where its slot leads. -/
theorem find_eq (key : K) (notFound : Int64) (s : MapState K) :
    (find key notFound s).1 =
      if s.self.table.get (s.self.place key).2 = 0 then .ok notFound
      else (pageOf s (s.self.place key).2 (Bytes.zeros pageSize)).map fun page =>
        (Page.value? s.self.dimensions.form (s.self.place key).1 key page).getD notFound := by
  let s1 := s.count fun c => { c with gets := c.gets + 1 }
  let b := (s.self.place key).2
  let l : Lookup K := ⟨key, notFound, (s.self.place key).1, b, s.self.table.get b⟩
  have hstart : find key notFound s = l.run s1 := rfl
  rw [hstart]
  by_cases hzero : l.location = 0
  · rw [Lookup.run_of_done (by rw [Lookup.step, if_pos hzero]), if_pos hzero]
  · have hread : (readPage s1 b l.location (Bytes.zeros pageSize)).1 =
        .ofExcept (pageOf s b (Bytes.zeros pageSize)) := readPage_slot s1 b _
    have ha := alike_readPage s1 b l.location (Bytes.zeros pageSize)
    rcases hgo : readPage s1 b l.location (Bytes.zeros pageSize) with ⟨r, t⟩
    rw [hgo] at hread ha
    rw [if_neg hzero]
    cases hp : pageOf s b (Bytes.zeros pageSize) with
    | ok page =>
        rw [hp] at hread
        cases hread
        have hstep : l.step s1 = (.done (.ok
            ((Page.value? t.self.dimensions.form l.hash key page).getD notFound)), t) := by
          simp only [Lookup.step, if_neg hzero, l, hgo]
        rw [Lookup.run_of_done hstep, ha.dimensions]
        rfl
    | error e =>
        rw [hp] at hread
        cases hread
        have hstep : l.step s1 = (.done (.error e), t) := by
          simp only [Lookup.step, if_neg hzero, l, hgo]
        rw [Lookup.run_of_done hstep]
        rfl

end PagedMap

structure SamePage {K : Type} (b : Nat) (s t : MapState K) : Prop where
  form : t.self.dimensions = s.self.dimensions
  slot : t.self.table.get b = s.self.table.get b
  fetch : t.self.archive.fetch t.host.disk (s.self.table.get b) .data pageSize =
    s.self.archive.fetch s.host.disk (s.self.table.get b) .data pageSize

namespace SamePage

variable {K : Type} {s t u : MapState K} {b : Nat}

theorem refl (b : Nat) (s : MapState K) : SamePage b s s := ⟨rfl, rfl, rfl⟩

theorem trans (h : SamePage b s t) (h' : SamePage b t u) : SamePage b s u where
  form := h'.form.trans h.form
  slot := h'.slot.trans h.slot
  fetch := by
    rw [← h.fetch, ← h.slot]
    exact h'.fetch

theorem symm (h : SamePage b s t) : SamePage b t s where
  form := h.form.symm
  slot := h.slot.symm
  fetch := by
    rw [h.slot]
    exact h.fetch.symm

theorem find_eq [FixedKey K] {key : K} (h : SamePage (s.self.place key).2 s t) (notFound : Int64) :
    (PagedMap.find key notFound t).1 = (PagedMap.find key notFound s).1 := by
  have hplace : t.self.place key = s.self.place key := by
    rw [PagedMap.place, PagedMap.place, h.form]
  have hpage : PagedMap.pageOf t (s.self.place key).2 (Bytes.zeros pageSize) =
      PagedMap.pageOf s (s.self.place key).2 (Bytes.zeros pageSize) := by
    have hl : (Bytes.zeros pageSize).length = pageSize := Bytes.length_zeros _
    rw [PagedMap.pageOf, PagedMap.pageOf, hl, h.slot, h.fetch, h.form]
  rw [PagedMap.find_eq, PagedMap.find_eq, hplace, h.slot, hpage, h.form]

end SamePage

variable {K : Type} [FixedKey K] {origin s s' : MapState K} {k k' : Stock} {b m n : Nat}

/-- A step that keeps the lasting volumes and the slot of a bucket keeps its page. -/
theorem Keeps.samePage (hk : Keeps m n s k s' k') (h : Located s k) (hm : k.moves = [])
    (hb : b < s.self.dimensions.buckets) (hslot : s'.self.table.get b = s.self.table.get b) :
    SamePage b s s' where
  form := hk.kin.dimensions
  slot := hslot
  fetch := by
    rcases h.points.slot_cases h.holds hb with ⟨hzero, -⟩ | ⟨e, -, -, -, hlasting⟩
    · have hnone : Location.segment? 0 = none := by
        rw [Location.segment?, if_pos (by rw [Location.maxOffset_eq]; decide)]
      simp only [hzero, Archive.fetch, hnone]
    · obtain ⟨v, hv, he⟩ := Volume.mem_allEntries.mp (k.lasting_subset (hlasting hm))
      obtain ⟨v', hv', he'⟩ := Volume.mem_allEntries.mp (k'.lasting_subset (hk.lasts (hlasting hm)))
      exact (hk.located.holds.fetch_eq hv' he' .data pageSize).trans
        (h.holds.fetch_eq hv he .data pageSize).symm

theorem Located.mem_of_fresh {e : Entry} (h : Located s k) (hf : k.fresh = some e) :
    e ∈ Volume.allEntries k.lasting := by
  rw [Stock.lasting, Volume.allEntries_append, h.points.written, hf]
  simp

inductive Yields (s : MapState K) (b : Nat) : Bytes → Prop
  | fresh (h : s.self.table.get b = 0) : Yields s b (Page.fresh b)
  | stored {page : Bytes} (h : s.self.table.get b ≠ 0)
      (hf : s.self.archive.fetch s.host.disk (s.self.table.get b) .data pageSize = .ok page)
      (hv : Page.Valid s.self.dimensions.form b page) : Yields s b page

namespace Yields

variable {page : Bytes}

omit [FixedKey K] in
theorem same (h : Yields s b page) (hs : SamePage b s s') : Yields s' b page := by
  cases h with
  | fresh hzero => exact .fresh (hs.slot.trans hzero)
  | stored hne hf hv =>
      refine .stored (hs.slot ▸ hne) ?_ (hs.form ▸ hv)
      rw [hs.slot, hs.fetch, hf]

theorem of_fresh {key location : Int64} (h : Located s k) (hf : k.fresh = some ⟨⟨key, page⟩, location⟩)
    (hk : Keeps m n s k s' k') (hslot : s'.self.table.get b = location)
    (hv : Page.Valid s'.self.dimensions.form b page) : Yields s' b page := by
  obtain ⟨v, hvolume, he⟩ := Volume.mem_allEntries.mp (k'.lasting_subset (hk.lasts (h.mem_of_fresh hf)))
  refine .stored ?_ ?_ hv
  · rw [hslot]
    exact ((hk.located.holds.stored v hvolume).location he).2
  · rw [hslot]
    exact hk.located.holds.fetch hvolume he .data (Nat.le_of_eq hv.length)

variable [DecidableEq K] [LawfulKey K]

theorem valid (h : Yields s b page) (hd : Shaped K s.self.dimensions)
    (hb : b < s.self.dimensions.buckets) : Page.Valid s.self.dimensions.form b page := by
  cases h with
  | fresh => exact Page.valid_fresh K hd.keySize (hd.lt hb)
  | stored _ _ hv => exact hv

theorem find_eq {key : K} (h : Yields s (s.self.place key).2 page) (hd : Shaped K s.self.dimensions)
    (notFound : Int64) : (PagedMap.find key notFound s).1 =
      .ok ((Page.value? s.self.dimensions.form (FixedKey.spread (FixedKey.hashCode key)) key
        page).getD notFound) := by
  rw [PagedMap.find_eq]
  cases h with
  | fresh hzero => rw [if_pos hzero, Page.value?_fresh hd.keySize, Option.getD_none]
  | stored hne hf hv =>
      have hpage : PagedMap.pageOf s (s.self.place key).2 (Bytes.zeros pageSize) = .ok page :=
        (PagedMap.pageOf_eq_ok (Bytes.length_zeros _)).mpr ⟨hf, hv⟩
      rw [if_neg hne, hpage]
      rfl

end Yields

omit [FixedKey K] in
theorem Takes.samePage (h : Takes s s') (b : Nat) : SamePage b s s' where
  form := h.remains.dimensions
  slot := by rw [h.table]
  fetch := by rw [h.archive, h.host]

/-- Closing and opening a map at rest leaves each page where it is. -/
theorem Located.reopen_samePage {line : List Volume} (h : Located s ⟨line, [], none, [], none, []⟩)
    (hc : Configured s) (hn : SegmentName.Plain s.self.name) :
    ∃ t, PagedMap.reopen s = (.ok (), t) ∧ t.self.dimensions = s.self.dimensions ∧
      ∀ b < s.self.dimensions.buckets, SamePage b s t := by
  obtain ⟨a, host, line', hr, hline⟩ := h.reopen_run hc hn
  refine ⟨_, hr.run, rfl, fun b hb => ⟨rfl, ?_, ?_⟩⟩
  · rw [h.points.get_eq rfl hb, Stock.live, List.append_nil, ← Archive.allEntries_of_shut hline]
    exact get_rebuild_allEntries h.shaped.buckets_le hb line'
  · exact Archive.Shelved.fetch_eq (s := ⟨s.self.archive, s.host⟩) (t := ⟨a, host⟩) h.shelved hr.shelved
      hline _ _ _

end MeteredStorage
