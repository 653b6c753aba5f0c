import MeteredStorage.PagedMap.Merge
import MeteredStorage.PagedMap.Opening
import MeteredStorage.Proofs.Archive.Tracing
import MeteredStorage.Proofs.Archive.Copying
import MeteredStorage.Proofs.PagedMap.Image

namespace MeteredStorage

abbrev Versions (K : Type) := Nat → Option (Bindings K)

namespace Versions

variable {K : Type}

def set (versions : Versions K) (bucket : Nat) (bs : Bindings K) : Versions K := fun b =>
  if b = bucket then some bs else versions b

end Versions

def bucketKey (bucket : Nat) : Int64 := Int64.ofInt bucket

theorem toInt_bucketKey {b : Nat} (h : b < 0x80000000) : (bucketKey b).toInt = b := by
  rw [bucketKey, Int64.toInt_ofInt_of_le]
  · omega
  · omega

theorem bucketKey_inj {b c : Nat} (hb : b < 0x80000000) (hc : c < 0x80000000)
    (h : bucketKey b = bucketKey c) : b = c := by
  have ht := congrArg Int64.toInt h
  rw [toInt_bucketKey hb, toInt_bucketKey hc] at ht
  exact Int.ofNat.inj ht

/-- The latest page of a bucket is one that is written behind all others. -/
theorem latest_concat {buckets bucket b : Nat} (hd : buckets ≤ 0x40000000) (hb : b < buckets)
    (hbucket : bucket < buckets) {e : Entry} (he : e.record.key = bucketKey bucket) {es : List Entry} :
    Entry.latest (bucketKey b) (es ++ [e]) =
      if b = bucket then some e else Entry.latest (bucketKey b) es := by
  have hiff : e.record.key = bucketKey b ↔ b = bucket :=
    ⟨fun hk => bucketKey_inj (by omega) (by omega) (hk.symm.trans he), fun hk => by rw [hk, he]⟩
  rw [Entry.latest_append, Entry.latest_singleton]
  by_cases hk : b = bucket
  · rw [if_pos (hiff.mpr hk), if_pos hk]
    rfl
  · rw [if_neg (mt hiff.mp hk), if_neg hk]
    rfl

namespace PageTable

def relocate (t : PageTable) (buckets : Nat) (m : Relocation) : PageTable :=
  if 0 ≤ m.key.toInt ∧ m.key.toInt < buckets ∧ t.get m.key.toInt.toNat = m.source then
    t.set m.key.toInt.toNat m.target
  else t

theorem get_relocate (t : PageTable) (m : Relocation) {buckets b : Nat}
    (hd : buckets ≤ 0x40000000) (hb : b < buckets) :
    (t.relocate buckets m).get b =
      if m.key = bucketKey b ∧ t.get b = m.source then m.target else t.get b := by
  have hkey (hle : 0 ≤ m.key.toInt) : m.key = bucketKey b ↔ b = m.key.toInt.toNat := by
    refine ⟨fun hk => by rw [hk, toInt_bucketKey (by omega), Int.toNat_natCast], fun hn => ?_⟩
    rw [hn, bucketKey, Int.toNat_of_nonneg hle, Int64.ofInt_toInt]
  rw [relocate]
  split
  · rename_i hc
    rw [get_set]
    by_cases he : b = m.key.toInt.toNat
    · rw [if_pos he, if_pos ⟨(hkey hc.1).mpr he, by rw [he]; exact hc.2.2⟩]
    · rw [if_neg he, if_neg fun hm => he ((hkey hc.1).mp hm.1)]
  · rename_i hc
    rw [if_neg]
    rintro ⟨hk, hs⟩
    have hint : m.key.toInt = b := by rw [hk, toInt_bucketKey (by omega)]
    refine hc ⟨by omega, by omega, ?_⟩
    rw [hint, Int.toNat_natCast]
    exact hs

end PageTable

theorem PagedMap.relocate_eq {K : Type} (m : PagedMap K) (move : Relocation) :
    (m.relocate move).1 = { m with table := m.table.relocate m.dimensions.buckets move } := by
  rw [relocate, PageTable.relocate]
  split <;> simp_all

structure Record.Paged (r : Record) : Prop where
  length : r.data.length = pageSize
  unmarked : BigEndian.toWord32 (r.data.take 4) ≠ Footer.magic

def Page.recordSize : Nat := Record.headerSize + pageSize

theorem Record.Paged.size {r : Record} (h : r.Paged) : r.size = Page.recordSize := by
  rw [Record.size, h.length, Page.recordSize]

def pageRecord {K : Type} [FixedKey K] (f : PageForm) (bucket : Nat) (bs : Bindings K) : Record :=
  ⟨bucketKey bucket, Page.image f bucket bs⟩

structure Shaped (K : Type) [FixedKey K] (d : Dimensions) : Prop where
  keySize : d.form.keySize = FixedKey.size K
  buckets_pos : 0 < d.buckets
  buckets_le : d.buckets ≤ 0x40000000

theorem Shaped.lt {K : Type} [FixedKey K] {d : Dimensions} (h : Shaped K d) {b : Nat}
    (hb : b < d.buckets) : b < 0x80000000 :=
  Nat.lt_of_lt_of_le hb (Nat.le_trans h.buckets_le (by decide))

/-- No bucket has the index that a footer would start with. -/
theorem paged_pageRecord {K : Type} [DecidableEq K] [FixedKey K] [LawfulKey K] {d : Dimensions}
    (h : Shaped K d) {b : Nat} (hb : b < d.buckets) {bs : Bindings K}
    (hl : bs.length ≤ d.form.perPage) : (pageRecord d.form b bs).Paged where
  length := Page.length_image h.keySize hl
  unmarked := by
    intro hmagic
    have hindex : (Page.index (Page.image d.form b bs)).toInt = b := Page.toInt_index_image (h.lt hb)
    have hword : BigEndian.toWord32 ((Page.image d.form b bs).take 4) = Footer.magic := hmagic
    rw [Page.index, BigEndian.toInt32, hword] at hindex
    have hvalue : Footer.magic.toInt32.toInt = 0x44415446 := by decide
    have hbuckets := h.buckets_le
    omega

/-- Bindings that the page of a bucket can hold: of different keys, all of them placed there. -/
structure Resident {K : Type} [FixedKey K] (d : Dimensions) (bucket : Nat) (bs : Bindings K) :
    Prop where
  bucket_lt : bucket < d.buckets
  room : bs.length ≤ d.form.perPage
  keys : (bs.map Prod.fst).Nodup
  placed : Placed d bucket bs

def Record.IsPage (K : Type) [FixedKey K] (d : Dimensions) (r : Record) : Prop :=
  ∃ bucket, ∃ bs : Bindings K, Resident d bucket bs ∧ r = pageRecord d.form bucket bs

theorem Record.IsPage.paged {K : Type} [DecidableEq K] [FixedKey K] [LawfulKey K] {d : Dimensions}
    {r : Record} (h : r.IsPage K d) (hd : Shaped K d) : r.Paged := by
  obtain ⟨bucket, bs, hr, rfl⟩ := h
  exact paged_pageRecord hd hr.bucket_lt hr.room

theorem shaped_of_dimensionsFor {K : Type} [FixedKey K] {mapSize : UInt64} {d : Dimensions}
    (h : PagedMap.dimensionsFor K mapSize = .ok d) : Shaped K d := by
  simp only [PagedMap.dimensionsFor, PageForm.ofKeySize, bind, Except.bind] at h
  split at h
  · cases h
  · rename_i form hform
    split at hform
    · cases hform
      simp only [Dimensions.ofMapSize] at h
      split at h
      · cases h
      · rename_i hsize
        cases h
        refine ⟨rfl, ?_, ?_⟩
        · rw [Nat.one_shiftLeft]
          exact Nat.two_pow_pos _
        · generalize hm : (mapSize.toNat * Dimensions.slotsPerEntry + (_ - 1)) / _ = minimum at *
          have hlt : minimum < 2 ^ 30 := Nat.lt_of_not_le fun hle => hsize (.inr (.inr hle))
          have hlog : minimum.log2 < 30 := by
            by_cases hzero : minimum = 0
            · rw [hzero]
              decide
            · exact (Nat.log2_lt hzero).mpr hlt
          rw [Nat.one_shiftLeft]
          exact Nat.pow_le_pow_right (n := 2) (by decide) hlog
    · cases hform

/-- What the archive of a map has at some moment. -/
structure Stock where
  /-- The completed volumes by rising age. -/
  line : List Volume
  /-- The volumes that a merge has replaced but not removed. -/
  old : List Volume := []
  /-- The volume that is being written. -/
  current : Option Volume := none
  /-- The entries of the current volume that have been published. -/
  shown : List Entry := []
  /-- The entry that has been stored last, until it is published. -/
  fresh : Option Entry := none
  /-- The moves of a merge that have not been published. -/
  moves : List Relocation := []

namespace Stock

def volumes (k : Stock) : List Volume := k.current.toList ++ (k.line ++ k.old)

def lasting (k : Stock) : List Volume := k.current.toList ++ k.line

def live (k : Stock) : List Entry := Volume.allEntries k.line ++ k.shown

/-- A slot with this location leads to the entry, or to where it was before a pending move. -/
def Leads (k : Stock) (bucket : Nat) (location : Int64) (e : Entry) : Prop :=
  location = e.location ∨ ∃ m ∈ k.moves, m.key = bucketKey bucket ∧ m.source = location ∧
    m.target = e.location ∧ ⟨e.record, location⟩ ∈ Volume.allEntries k.old

end Stock

def Spanning (buckets : Nat) (vs : List Volume) : Prop :=
  ∀ v ∈ vs, ∀ f, v.segment.footer = some f → f.minKey = 0 ∧ f.maxKey = bucketKey buckets

theorem Spanning.nil (buckets : Nat) : Spanning buckets [] := nofun

/-- The slot of each bucket leads to its latest page, whatever that holds. -/
structure Points (buckets : Nat) (t : PageTable) (k : Stock) : Prop where
  written : Volume.allEntries k.current.toList = k.shown ++ k.fresh.toList
  ranges : Spanning buckets (k.line ++ k.old)
  nodup : (k.moves.map Relocation.key).Nodup
  moved : ∀ m ∈ k.moves, ∃ e ∈ Volume.allEntries k.old, e.location = m.source
  empty : ∀ b < buckets, Entry.latest (bucketKey b) k.live = none → t.get b = 0
  leads : ∀ b < buckets, ∀ e, Entry.latest (bucketKey b) k.live = some e → k.Leads b (t.get b) e

namespace Points

variable {buckets bucket b : Nat} {t : PageTable} {k : Stock} {v : Volume} {r : Record}
  {location : Int64}

theorem spanning (h : Points buckets t k) : Spanning buckets k.line :=
  fun v hv => h.ranges v (List.mem_append_left _ hv)

theorem idle (h : Points buckets t k) (hc : k.current = none) : k.shown = [] ∧ k.fresh = none := by
  have hw := h.written
  rw [hc] at hw
  obtain ⟨hs, hf⟩ := List.append_eq_nil_iff.mp hw.symm
  exact ⟨hs, Option.toList_eq_nil_iff.mp hf⟩

theorem started (h : Points buckets t k) (hc : k.current = none) (hv : v.records = []) :
    Points buckets t { k with current := some v } where
  written := by
    obtain ⟨hs, hf⟩ := h.idle hc
    simp [Volume.allEntries, Volume.entries, hv, hs, hf, Record.place]
  ranges := h.ranges
  nodup := h.nodup
  moved := h.moved
  empty := h.empty
  leads := h.leads

theorem stored (h : Points buckets t k) (hc : k.current = some v) (hf : k.fresh = none)
    (r : Record) : Points buckets t { k with
      current := some (v.push r)
      fresh := some ⟨r, Location.pack v.segment.index v.dataSize⟩ } where
  written := by
    have hw := h.written
    rw [hc, hf, Option.toList_some, Option.toList_none, List.append_nil, Volume.allEntries,
      List.flatMap_singleton] at hw
    simp [Volume.allEntries, Volume.entries_push, hw]
  ranges := h.ranges
  nodup := h.nodup
  moved := h.moved
  empty := h.empty
  leads := h.leads

theorem published (h : Points buckets t k) (hd : buckets ≤ 0x40000000) (hb : bucket < buckets)
    (hr : r.key = bucketKey bucket) (hf : k.fresh = some ⟨r, location⟩) :
    Points buckets (t.set bucket location)
      { k with shown := k.shown ++ [⟨r, location⟩], fresh := none } := by
  have hlive (b : Nat) (hlt : b < buckets) :
      Entry.latest (bucketKey b) (Volume.allEntries k.line ++ (k.shown ++ [⟨r, location⟩])) =
      if b = bucket then some ⟨r, location⟩ else Entry.latest (bucketKey b) k.live := by
    rw [← List.append_assoc, latest_concat hd hlt hb hr]
    rfl
  refine ⟨?_, h.ranges, h.nodup, h.moved, fun b hlt hnone => ?_, fun b hlt e he => ?_⟩
  · have hw := h.written
    rw [hf] at hw
    rw [hw, Option.toList_none, List.append_nil]
    rfl
  · rw [Stock.live, hlive b hlt] at hnone
    split at hnone
    · cases hnone
    · rename_i hne
      rw [PageTable.get_set, if_neg hne]
      exact h.empty b hlt hnone
  · rw [Stock.live, hlive b hlt] at he
    split at he
    · rename_i heq
      cases he
      rw [PageTable.get_set, if_pos heq]
      exact .inl rfl
    · rename_i hne
      rw [PageTable.get_set, if_neg hne]
      exact h.leads b hlt e he

theorem live_ended (h : Points buckets t k) (hc : k.current = some v) (hfresh : k.fresh = none)
    (f : Footer) : Volume.allEntries (k.line ++ [v.finished f]) ++ [] = k.live := by
  have hw := h.written
  rw [hc, hfresh, Option.toList_none, List.append_nil, Option.toList_some, Volume.allEntries,
    List.flatMap_singleton] at hw
  rw [List.append_nil, Volume.allEntries_append, Stock.live, ← hw, Volume.allEntries,
    Volume.allEntries, List.flatMap_singleton, Volume.entries_finished]

theorem ended (h : Points buckets t k) (hc : k.current = some v) (hfresh : k.fresh = none)
    {f : Footer} (hmin : f.minKey = 0) (hmax : f.maxKey = bucketKey buckets) :
    Points buckets t { k with line := k.line ++ [v.finished f], current := none, shown := [] } := by
  have hlive := h.live_ended hc hfresh f
  refine ⟨?_, fun u hu g hg => ?_, h.nodup, h.moved, fun b hb hnone => ?_, fun b hb e he => ?_⟩
  · rw [hfresh]
    rfl
  · rw [List.append_assoc, List.mem_append, List.singleton_append, List.mem_cons] at hu
    rcases hu with hu | rfl | hu
    · exact h.ranges u (List.mem_append_left _ hu) g hg
    · cases hg
      exact ⟨hmin, hmax⟩
    · exact h.ranges u (List.mem_append_right _ hu) g hg
  · rw [Stock.live, hlive] at hnone
    exact h.empty b hb hnone
  · rw [Stock.live, hlive] at he
    exact h.leads b hb e he

/-- The keys of all buckets are in the range of a volume of the line. -/
theorem in_range (h : Points buckets t k) (hd : buckets ≤ 0x40000000) (hv : v ∈ k.line)
    {f : Footer} (hf : v.segment.footer = some f) (hb : b < buckets) :
    f.minKey ≤ bucketKey b ∧ bucketKey b ≤ f.maxKey := by
  obtain ⟨hmin, hmax⟩ := h.spanning v hv f hf
  rw [hmin, hmax, Int64.le_iff_toInt_le, Int64.le_iff_toInt_le, toInt_bucketKey (by omega),
    toInt_bucketKey (by omega)]
  exact ⟨Int.natCast_nonneg b, by omega⟩

/-- The latest entry of a key is behind a run, in the run or in front of it. -/
theorem latest_around (key : Int64) (front run back : List Volume) (shown : List Entry) :
    Entry.latest key (Volume.allEntries (front ++ (run ++ back)) ++ shown) =
      (Entry.latest key (Volume.allEntries back ++ shown)).or
        ((Entry.latest key (Volume.allEntries run)).or
          (Entry.latest key (Volume.allEntries front))) := by
  simp only [Volume.allEntries_append, Entry.latest_append, Option.or_assoc]

/-- The output of a merge takes the place of its run; the slots are yet to follow. -/
theorem prepared (h : Points buckets t k) (hd : buckets ≤ 0x40000000) (hmoves : k.moves = [])
    {front run back outs : List Volume} (hline : k.line = front ++ (run ++ back)) {w : Volume}
    {newest : Footer} (hw : w ∈ run) (hn : w.segment.footer = some newest) {moves : List Relocation}
    (hr : Relocates run outs newest.minKey newest.maxKey moves)
    (hranges : ∀ o ∈ outs, ∀ f, o.segment.footer = some f →
      f.minKey = newest.minKey ∧ f.maxKey = newest.maxKey) :
    Points buckets t { k with
      line := front ++ (outs ++ back)
      old := run.reverse
      moves := moves } := by
  have hwline : w ∈ k.line := by simp [hline, hw]
  have hold {e : Entry} : e ∈ Volume.allEntries run.reverse ↔ e ∈ Volume.allEntries run := by
    simp [Volume.mem_allEntries]
  have hbefore (b : Nat) : Entry.latest (bucketKey b) k.live =
      (Entry.latest (bucketKey b) (Volume.allEntries back ++ k.shown)).or
        ((Entry.latest (bucketKey b) (Volume.allEntries run)).or
          (Entry.latest (bucketKey b) (Volume.allEntries front))) := by
    rw [Stock.live, hline, latest_around]
  have hdirect {b : Nat} {e : Entry} (hl : k.Leads b (t.get b) e) : t.get b = e.location := by
    rcases hl with hl | ⟨m, hm, -⟩
    · exact hl
    · rw [hmoves] at hm
      cases hm
  refine ⟨h.written, fun v hv f hf => ?_, hr.nodup, fun m hm => ?_, fun b hb hnone => ?_,
    fun b hb e he => ?_⟩
  · simp only [List.mem_append, List.mem_reverse] at hv
    rcases hv with (hv | hv | hv) | hv
    · exact h.ranges v (by simp [hline, hv]) f hf
    · obtain ⟨hfmin, hfmax⟩ := hranges v hv f hf
      rw [hfmin, hfmax]
      exact h.spanning w hwline newest hn
    · exact h.ranges v (by simp [hline, hv]) f hf
    · exact h.ranges v (by simp [hline, hv]) f hf
  · obtain ⟨r, hsource, -⟩ := hr.moved m hm
    exact ⟨_, hold.mpr (Entry.latest_mem hsource).1, rfl⟩
  · rw [Stock.live, latest_around] at hnone
    obtain ⟨hlow, hhigh⟩ := h.in_range hd hwline hn hb
    have hrec := hr.latest_eq hlow hhigh
    refine h.empty b hb ?_
    rw [hbefore]
    simp only [Option.or_eq_none_iff] at hnone ⊢
    rw [hnone.2.1, Option.map_none] at hrec
    exact ⟨hnone.1, Option.map_eq_none_iff.mp hrec.symm, hnone.2.2⟩
  · rw [Stock.live, latest_around] at he
    have hbef := hbefore b
    cases hback : Entry.latest (bucketKey b) (Volume.allEntries back ++ k.shown) with
    | some f =>
        rw [hback, Option.some_or] at he hbef
        cases he
        exact .inl (hdirect (h.leads b hb e hbef))
    | none =>
        rw [hback, Option.none_or] at he hbef
        obtain ⟨hlow, hhigh⟩ := h.in_range hd hwline hn hb
        cases hrun : Entry.latest (bucketKey b) (Volume.allEntries run) with
        | none =>
            have hout : Entry.latest (bucketKey b) (Volume.allEntries outs) = none := by
              have hrec := hr.latest_eq hlow hhigh
              rw [hrun, Option.map_none] at hrec
              exact Option.map_eq_none_iff.mp hrec
            rw [hrun, Option.none_or] at hbef
            rw [hout, Option.none_or] at he
            exact .inl (hdirect (h.leads b hb e (hbef.trans he)))
        | some f =>
            obtain ⟨m, hm, hkey, hsource, htarget⟩ := hr.of_latest hlow hhigh hrun
            rw [htarget, Option.some_or] at he
            cases he
            rw [hrun, Option.some_or] at hbef
            have hl := hdirect (h.leads b hb _ hbef)
            refine .inr ⟨m, hm, hkey, hsource.trans hl.symm, rfl, hold.mpr ?_⟩
            rw [hl]
            exact (Entry.latest_mem hrun).1

/-- A move is published unless the bucket has been written again. -/
theorem relocated (h : Points buckets t k) (hd : buckets ≤ 0x40000000)
    (hapart : ∀ e ∈ k.live, ∀ f ∈ Volume.allEntries k.old, e.location ≠ f.location)
    (hzero : ∀ f ∈ Volume.allEntries k.old, f.location ≠ 0)
    {m : Relocation} {moves : List Relocation} (hmoves : k.moves = m :: moves) :
    Points buckets (t.relocate buckets m) { k with moves := moves } := by
  have hn := h.nodup
  rw [hmoves, List.map_cons, List.nodup_cons] at hn
  obtain ⟨o, ho, hsource⟩ := h.moved m (hmoves ▸ List.mem_cons_self ..)
  refine ⟨h.written, h.ranges, hn.2, fun m' hm' => h.moved m' (hmoves ▸ List.mem_cons_of_mem _ hm'),
    fun b hb hnone => ?_, fun b hb e he => ?_⟩
  · have hslot := h.empty b hb hnone
    rw [PageTable.get_relocate t m hd hb, if_neg, hslot]
    rintro ⟨-, hs⟩
    rw [hslot, ← hsource] at hs
    exact hzero o ho hs.symm
  · have hl := h.leads b hb e he
    rw [PageTable.get_relocate t m hd hb]
    rcases hl with hl | ⟨m', hm', hk', hs', ht', hold⟩
    · rw [if_neg]
      · exact .inl hl
      · rintro ⟨-, hs⟩
        rw [hl, ← hsource] at hs
        exact hapart e (Entry.latest_mem he).1 o ho hs
    · rw [hmoves] at hm'
      rcases List.mem_cons.mp hm' with rfl | hm'
      · rw [if_pos ⟨hk', hs'.symm⟩]
        exact .inl ht'
      · rw [if_neg]
        · exact .inr ⟨m', hm', hk', hs', ht', hold⟩
        · rintro ⟨hk, -⟩
          exact hn.1 (List.mem_map.mpr ⟨m', hm', hk'.trans hk.symm⟩)

/-- Once all moves are published the replaced volumes may go. -/
theorem removed (h : Points buckets t k) (hmoves : k.moves = []) {old : List Volume}
    (hold : old ⊆ k.old) : Points buckets t { k with old := old } where
  written := h.written
  ranges v hv := h.ranges v ((List.append_subset.mpr ⟨List.subset_append_left ..,
    List.subset_append_of_subset_right _ hold⟩) hv)
  nodup := h.nodup
  moved := by simp [hmoves]
  empty := h.empty
  leads := by
    intro b hb e he
    rcases h.leads b hb e he with hl | ⟨m, hm, -⟩
    · exact .inl hl
    · rw [hmoves] at hm
      cases hm

/-- A slot is zero, or the latest page of its bucket is where it leads. -/
theorem slot_cases (h : Points buckets t k) {a : Archive} {disk : Disk}
    (hh : Archive.Holds a disk k.volumes) (hb : b < buckets) :
    (t.get b = 0 ∧ Entry.latest (bucketKey b) k.live = none) ∨
      ∃ e, Entry.latest (bucketKey b) k.live = some e ∧ t.get b ≠ 0 ∧
        ⟨e.record, t.get b⟩ ∈ Volume.allEntries k.volumes ∧
        (k.moves = [] → ⟨e.record, t.get b⟩ ∈ Volume.allEntries k.lasting) := by
  cases he : Entry.latest (bucketKey b) k.live with
  | none => exact .inl ⟨h.empty b hb he, rfl⟩
  | some e =>
      have hl := h.leads b hb e he
      have hlasting : e ∈ Volume.allEntries k.lasting := by
        rw [Stock.lasting, Volume.allEntries_append, h.written]
        rcases List.mem_append.mp (Entry.latest_mem he).1 with hm | hm <;> simp [hm]
      have hmem : ⟨e.record, t.get b⟩ ∈ Volume.allEntries k.volumes ∧
          (k.moves = [] → ⟨e.record, t.get b⟩ ∈ Volume.allEntries k.lasting) := by
        rcases hl with hl | ⟨m, hm, -, -, -, hold⟩
        · rw [hl]
          refine ⟨?_, fun _ => hlasting⟩
          rw [Stock.volumes, ← List.append_assoc, Volume.allEntries_append]
          exact List.mem_append_left _ hlasting
        · refine ⟨?_, fun hnil => by rw [hnil] at hm; cases hm⟩
          rw [Stock.volumes, ← List.append_assoc, Volume.allEntries_append]
          exact List.mem_append_right _ hold
      obtain ⟨v, hv, hentry⟩ := Volume.mem_allEntries.mp hmem.1
      exact .inr ⟨e, rfl, ((hh.stored v hv).location hentry).2, hmem⟩

end Points

structure Resembles (buckets : Nat) (k k' : Stock) : Prop where
  latest : ∀ b < buckets, (Entry.latest (bucketKey b) k'.live).map Entry.record =
    (Entry.latest (bucketKey b) k.live).map Entry.record
  records : ∀ e ∈ Volume.allEntries k'.volumes, ∃ o ∈ Volume.allEntries k.volumes, o.record = e.record

namespace Resembles

variable {buckets : Nat} {k k' k'' : Stock}

theorem refl (buckets : Nat) (k : Stock) : Resembles buckets k k :=
  ⟨fun _ _ => rfl, fun e he => ⟨e, he, rfl⟩⟩

theorem trans (h : Resembles buckets k k') (h' : Resembles buckets k' k'') :
    Resembles buckets k k'' where
  latest b hb := (h'.latest b hb).trans (h.latest b hb)
  records e he := by
    obtain ⟨o, ho, hr⟩ := h'.records e he
    obtain ⟨o', ho', hr'⟩ := h.records o ho
    exact ⟨o', ho', hr'.trans hr⟩

theorem of_subset (hlive : k'.live = k.live)
    (hsub : Volume.allEntries k'.volumes ⊆ Volume.allEntries k.volumes) :
    Resembles buckets k k' :=
  ⟨fun b _ => by rw [hlive], fun e he => ⟨e, hsub he, rfl⟩⟩

end Resembles

structure Rewrites (buckets : Nat) (k k' : Stock) : Prop where
  line : ∀ b < buckets, (Entry.latest (bucketKey b) (Volume.allEntries k'.line)).map Entry.record =
    (Entry.latest (bucketKey b) (Volume.allEntries k.line)).map Entry.record
  shown : k'.shown = k.shown
  records : ∀ e ∈ Volume.allEntries k'.volumes, ∃ o ∈ Volume.allEntries k.volumes, o.record = e.record

namespace Rewrites

variable {buckets : Nat} {k k' k'' : Stock}

theorem resembles (h : Rewrites buckets k k') : Resembles buckets k k' where
  latest b hb := by
    rw [Stock.live, Stock.live, Entry.latest_append, Entry.latest_append, Option.map_or, Option.map_or,
      h.line b hb, h.shown]
  records := h.records

theorem refl (buckets : Nat) (k : Stock) : Rewrites buckets k k :=
  ⟨fun _ _ => rfl, rfl, fun e he => ⟨e, he, rfl⟩⟩

theorem trans (h : Rewrites buckets k k') (h' : Rewrites buckets k' k'') :
    Rewrites buckets k k'' where
  line b hb := (h'.line b hb).trans (h.line b hb)
  shown := h'.shown.trans h.shown
  records := (h.resembles.trans h'.resembles).records

theorem of_subset (hline : k'.line = k.line) (hshown : k'.shown = k.shown)
    (hsub : Volume.allEntries k'.volumes ⊆ Volume.allEntries k.volumes) : Rewrites buckets k k' :=
  ⟨fun b _ => by rw [hline], hshown, fun e he => ⟨e, hsub he, rfl⟩⟩

end Rewrites

structure Shows {K : Type} [FixedKey K] (d : Dimensions) (es : List Entry) (versions : Versions K) :
    Prop where
  empty : ∀ b < d.buckets, Entry.latest (bucketKey b) es = none → versions b = none
  page : ∀ b < d.buckets, ∀ e, Entry.latest (bucketKey b) es = some e →
    ∃ bs, versions b = some bs ∧ bs.length ≤ d.form.perPage ∧ e.record = pageRecord d.form b bs

namespace Shows

variable {K : Type} [FixedKey K] {d : Dimensions} {es fs : List Entry} {versions : Versions K}

theorem congr (h : Shows d es versions)
    (he : ∀ b < d.buckets, (Entry.latest (bucketKey b) fs).map Entry.record =
      (Entry.latest (bucketKey b) es).map Entry.record) : Shows d fs versions where
  empty b hb hnone := by
    have hrec := he b hb
    rw [hnone, Option.map_none] at hrec
    exact h.empty b hb (Option.map_eq_none_iff.mp hrec.symm)
  page b hb e hlast := by
    have hrec := he b hb
    rw [hlast, Option.map_some] at hrec
    obtain ⟨e', he', hr⟩ := Option.map_eq_some_iff.mp hrec.symm
    rw [← hr]
    exact h.page b hb e' he'

theorem published (h : Shows d es versions) (hd : d.buckets ≤ 0x40000000) {bucket : Nat}
    (hb : bucket < d.buckets) {bs : Bindings K} (hl : bs.length ≤ d.form.perPage) (location : Int64) :
    Shows d (es ++ [⟨pageRecord d.form bucket bs, location⟩]) (versions.set bucket bs) where
  empty b hlt hnone := by
    rw [latest_concat hd hlt hb rfl] at hnone
    split at hnone
    · cases hnone
    · rename_i hne
      rw [Versions.set, if_neg hne]
      exact h.empty b hlt hnone
  page b hlt e he := by
    rw [latest_concat hd hlt hb rfl] at he
    split at he
    · rename_i heq
      cases he
      rw [Versions.set, if_pos heq, heq]
      exact ⟨bs, rfl, hl, rfl⟩
    · rename_i hne
      rw [Versions.set, if_neg hne]
      exact h.page b hlt e he

theorem nothing (d : Dimensions) : Shows d [] fun _ => (none : Option (Bindings K)) :=
  ⟨fun _ _ _ => rfl, fun _ _ _ he => by cases he⟩

end Shows

namespace PagedMap

variable {d : Dimensions} {b : Nat}

theorem bucket?_eq_some (hd : d.buckets ≤ 0x40000000) {key : Int64} (hb : b < d.buckets) :
    bucket? d key = some b ↔ key = bucketKey b := by
  rw [bucket?]
  constructor
  · intro h
    split at h
    · rename_i hc
      rw [bucketKey, ← Option.some.inj h, Int.toNat_of_nonneg hc.1, Int64.ofInt_toInt]
    · cases h
  · intro h
    have ht : key.toInt = b := by rw [h, toInt_bucketKey (by omega)]
    rw [ht, if_pos ⟨Int.natCast_nonneg b, by omega⟩, Int.toNat_natCast]

/-- A rebuilt slot has the last location that was visited for its bucket. -/
theorem get_rebuild (hd : d.buckets ≤ 0x40000000) (hb : b < d.buckets)
    (visits : List (Int64 × Int64)) (t : PageTable) (ignored : Nat) :
    (rebuild d visits t ignored).1.get b =
      ((visits.filter (·.1 == bucketKey b)).getLast?.map Prod.snd).getD (t.get b) := by
  induction visits generalizing t ignored with
  | nil => rfl
  | cons visit visits ih =>
      obtain ⟨key, location⟩ := visit
      rw [rebuild]
      by_cases hk : key = bucketKey b
      · rw [(bucket?_eq_some hd hb).mpr hk, List.filter_cons_of_pos (by simpa using hk),
          List.getLast?_cons]
        simp only [ih, PageTable.get_set, if_pos]
        cases (visits.filter (·.1 == bucketKey b)).getLast? <;> rfl
      · rw [List.filter_cons_of_neg (by simpa using hk)]
        cases hbucket : bucket? d key with
        | none => exact ih t (ignored + 1)
        | some c =>
            have hne : b ≠ c := fun he => hk ((bucket?_eq_some hd hb).mp (he ▸ hbucket))
            simp only [ih, PageTable.get_set, if_neg hne]

end PagedMap

theorem get_rebuild_allEntries {d : Dimensions} (hd : d.buckets ≤ 0x40000000) {b : Nat}
    (hb : b < d.buckets) (line : List Volume) :
    (PagedMap.rebuild d ((Volume.allEntries line).map fun e => (e.record.key, e.location))
      .empty 0).1.get b =
      ((Entry.latest (bucketKey b) (Volume.allEntries line)).map Entry.location).getD 0 := by
  rw [PagedMap.get_rebuild hd hb, Entry.map_location_latest]
  rfl

/-- Without pending moves a slot has the location of the latest page, or zero if there is none. -/
theorem Points.get_eq {buckets b : Nat} {t : PageTable} {k : Stock} (h : Points buckets t k)
    (hm : k.moves = []) (hb : b < buckets) :
    t.get b = ((Entry.latest (bucketKey b) k.live).map Entry.location).getD 0 := by
  cases he : Entry.latest (bucketKey b) k.live with
  | none => exact h.empty b hb he
  | some e =>
      rcases h.leads b hb e he with hl | ⟨m, hmem, -⟩
      · exact hl
      · rw [hm] at hmem
        cases hmem

theorem Points.of_get_eq {buckets : Nat} {t : PageTable} {line : List Volume}
    (hranges : Spanning buckets line)
    (hslots : ∀ b < buckets, t.get b =
      ((Entry.latest (bucketKey b) (Volume.allEntries line)).map Entry.location).getD 0) :
    Points buckets t ⟨line, [], none, [], none, []⟩ := by
  refine ⟨rfl, (List.append_nil line).symm ▸ hranges, List.Pairwise.nil, by simp,
    fun b hb hnone => ?_, fun b hb e he => ?_⟩
  · rw [Stock.live, List.append_nil] at hnone
    rw [hslots b hb, hnone]
    rfl
  · rw [Stock.live, List.append_nil] at he
    rw [hslots b hb, he]
    exact .inl rfl

theorem Points.rebuilt {d : Dimensions} (hd : d.buckets ≤ 0x40000000) {line : List Volume}
    (hranges : Spanning d.buckets line) :
    Points d.buckets (PagedMap.rebuild d
      ((Volume.allEntries line).map fun e => (e.record.key, e.location)) .empty 0).1
      ⟨line, [], none, [], none, []⟩ :=
  .of_get_eq hranges fun _ hb => get_rebuild_allEntries hd hb line

end MeteredStorage
