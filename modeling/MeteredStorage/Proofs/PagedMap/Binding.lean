import Mathlib.Data.List.Induction
import MeteredStorage.Proofs.PagedMap.Refinement
import MeteredStorage.Proofs.PagedMap.Trapping

namespace MeteredStorage

open BigEndian

namespace ChangeSet

variable {K : Type} [DecidableEq K]

theorem setValues_concat (stored bs : Bindings K) (c : K × Int64) :
    setValues (stored ++ [c]) bs = setValue c.1 c.2 (setValues stored bs) := by
  rw [setValues, List.foldl_append]
  rfl

theorem lookup_setValues_nil (stored : Bindings K) (key : K) :
    (setValues stored []).lookup key = lastPut key stored := by
  induction stored using List.reverseRecOn with
  | nil => rfl
  | append_singleton stored c ih => rw [setValues_concat, lookup_setValue, lastPut_concat, ih]

theorem keys_setValues_nil (stored : Bindings K) :
    (setValues stored []).map Prod.fst = (stored.map Prod.fst).eraseDups := by
  induction stored using List.reverseRecOn with
  | nil => rfl
  | append_singleton stored c ih =>
      rw [setValues_concat, map_setValue, ih, List.map_append, List.eraseDups_append]
      by_cases hk : c.1 ∈ stored.map Prod.fst
      · have hremoved : [c.1].removeAll (stored.map Prod.fst) = [] :=
          List.filter_cons_of_neg (by simpa using hk)
        rw [if_pos (List.mem_eraseDups.mpr hk), List.map_cons, List.map_nil, hremoved]
        exact (List.append_nil _).symm
      · have hremoved : [c.1].removeAll (stored.map Prod.fst) = [c.1] :=
          List.filter_cons_of_pos (by simpa using hk)
        rw [if_neg (mt List.mem_eraseDups.mp hk), List.map_cons, List.map_nil, hremoved]
        rfl

end ChangeSet

namespace Page

variable {K : Type} [FixedKey K]

def entryWith (hash : K → Int32) (c : K × Int64) : PageEntry :=
  ⟨hash c.1, FixedKey.version K, FixedKey.write c.1, c.2⟩

/-- Stores values in turn, in place: which of them were stored, and the page in the end. -/
def storeAll? (f : PageForm) (hash : K → Int32) : Bindings K → Bytes → Option (Bindings K × Bytes)
  | [], page => some ([], page)
  | c :: calls, page => do
    let (outcome, page) ← store? f (hash c.1) c.1 c.2 page
    let (stored, page) ← storeAll? f hash calls page
    match outcome with
    | .ok () => return (c :: stored, page)
    | .error _ => return (stored, page)

structure Shows (f : PageForm) (hash : K → Int32) (index : Int32) (bs : Bindings K) (page : Bytes) :
    Prop where
  length : page.length = pageSize
  index : Page.index page = index
  count : (storedCount page).toInt = bs.length
  room : bs.length ≤ f.perPage
  entries : Page.entries f page = bs.map (entryWith hash)

variable {f : PageForm} {hash : K → Int32} {index : Int32} {bs : Bindings K} {page : Bytes}

theorem Shows.count_eq (h : Shows f hash index bs page) : Page.count f page = bs.length := by
  rw [Page.count, h.count, Int.toNat_natCast, Nat.min_eq_left h.room]

variable [DecidableEq K] [LawfulKey K]

theorem shows_fresh (hf : f.keySize = FixedKey.size K) (hash : K → Int32) (index : Int32) :
    Shows f hash index [] (fresh index.toUInt32.toNat) := by
  have hl : ([] : Bindings K).length ≤ f.perPage := Nat.zero_le _
  rw [fresh_eq (K := K) f]
  refine ⟨length_image hf hl, ?_, toInt_storedCount_image hl, hl, entries_image hf hl⟩
  rw [Page.index, image, List.take_left' (length_encode ..)]
  exact toInt32_ofInt32 index

theorem Shows.value?_eq (h : Shows f hash index bs page) (key : K) :
    value? f (hash key) key page = bs.lookup key := by
  rw [value?, h.entries]
  clear h
  induction bs with
  | nil => rfl
  | cons c bs ih =>
      obtain ⟨l, v⟩ := c
      rw [List.map_cons, List.find?_cons, entryWith, isFor_written, List.lookup_cons]
      by_cases hk : l = key
      · simp [hk]
      · have hne : (key == l) = false := beq_false_of_ne (Ne.symm hk)
        simp only [hk, decide_false, hne]
        exact ih

theorem Shows.put (h : Shows f hash index bs page) (hf : f.keySize = FixedKey.size K) (key : K)
    (value : Int64) :
    ((key ∈ bs.map Prod.fst ∨ bs.length < f.perPage) ∧ ∃ page',
      Page.put f (hash key) key value page = .ok page' ∧
      Shows f hash index (ChangeSet.setValue key value bs) page') ∨
    (key ∉ bs.map Prod.fst ∧ bs.length = f.perPage) ∧
      Page.put f (hash key) key value page = .error (.pageFull index) := by
  have hkey : (FixedKey.write key).length = f.keySize := (LawfulKey.length_write key).trans hf.symm
  have hfor_iff (c : K × Int64) : isFor (hash key) key (entryWith hash c) ↔ c.1 = key := by
    rw [entryWith, isFor_written, decide_eq_true_iff]
  rcases put_cases h.length hkey (hash key) value with
    ⟨page', before, e, after, hput, -, hlength, hindex, hstored, hold, hnew, hbefore, hfor⟩ |
    ⟨habsent, ⟨hroom, page', hput, -, hlength, hindex, hstored, hnew⟩ | ⟨hfull, hput⟩⟩
  · rw [h.entries] at hold
    obtain ⟨front, back, rfl, rfl, hback⟩ := List.map_eq_append_iff.mp hold
    obtain ⟨c, rest, rfl, rfl, rfl⟩ := List.map_eq_cons_iff.mp hback
    obtain ⟨l, old⟩ := c
    obtain rfl : l = key := (hfor_iff (l, old)).mp hfor
    have hfront (c : K × Int64) (hc : c ∈ front) : c.1 ≠ l := fun he =>
      hbefore _ (List.mem_map_of_mem hc) ((hfor_iff c).mpr he)
    refine .inl ⟨.inl (by simp), page', hput, ?_⟩
    rw [ChangeSet.setValue_of_first hfront]
    refine ⟨hlength, hindex.trans h.index, ?_, ?_, ?_⟩
    · rw [hstored, h.count]
      simp
    · simpa using h.room
    · rw [hnew, List.map_append, List.map_cons]
      rfl
  · have hnone (c : K × Int64) (hc : c ∈ bs) : c.1 ≠ key := fun he =>
      habsent _ (h.entries ▸ List.mem_map_of_mem hc) ((hfor_iff c).mpr he)
    rw [h.count_eq] at hroom hstored
    refine .inl ⟨.inr hroom, page', hput, ?_⟩
    rw [ChangeSet.setValue_of_absent hnone]
    refine ⟨hlength, hindex.trans h.index, ?_, ?_, ?_⟩
    · rw [hstored, List.length_append, List.length_singleton]
    · rw [List.length_append, List.length_singleton]
      exact hroom
    · rw [hnew, h.entries, List.map_append]
      rfl
  · have hnone : key ∉ bs.map Prod.fst := by
      intro hm
      obtain ⟨c, hc, he⟩ := List.mem_map.mp hm
      exact habsent _ (h.entries ▸ List.mem_map_of_mem hc) ((hfor_iff c).mpr he)
    rw [h.count_eq] at hfull
    exact .inr ⟨⟨hnone, Nat.le_antisymm h.room hfull⟩, h.index ▸ hput⟩

theorem Shows.storeAll (h : Shows f hash index bs page) (hf : f.keySize = FixedKey.size K)
    (calls : Bindings K) : ∃ stored page', storeAll? f hash calls page = some (stored, page') ∧
      Shows f hash index (ChangeSet.setValues stored bs) page' := by
  induction calls generalizing bs page with
  | nil => exact ⟨[], page, rfl, h⟩
  | cons c calls ih =>
      have hkey : (FixedKey.write c.1).length = f.keySize := (LawfulKey.length_write c.1).trans hf.symm
      have hstore := store?_eq h.length (hash c.1) hkey c.2
      rcases h.put hf c.1 c.2 with ⟨-, page1, hput, h1⟩ | ⟨-, hput⟩
      · obtain ⟨stored, page', hall, h'⟩ := ih h1
        rw [hput] at hstore
        refine ⟨c :: stored, page', ?_, h'⟩
        rw [storeAll?, hstore]
        simp only [inPlace, Option.bind_eq_bind, Option.bind_some, hall]
        rfl
      · -- The page is full and left as it is, so it shows the same bindings to the calls that follow.
        obtain ⟨stored, page', hall, h'⟩ := ih h
        rw [hput] at hstore
        refine ⟨stored, page', ?_, h'⟩
        rw [storeAll?, hstore]
        simp only [inPlace, Option.bind_eq_bind, Option.bind_some, hall]
        rfl

/--
After any stores in a fresh page, whatever the hashes of the keys, each key has its last stored value.
The keys stand in the order in which they were first stored. The next store fails if and only if its key
is new and the page is full, which leaves the page as it is, and otherwise it leaves all other keys.
-/
theorem storeAll?_finite_map (hf : f.keySize = FixedKey.size K) (hash : K → Int32) (index : Int32)
    (calls : Bindings K) : ∃ stored page,
      storeAll? f hash calls (fresh index.toUInt32.toNat) = some (stored, page) ∧
      (∀ key, value? f (hash key) key page = lastPut key stored) ∧
      count f page = (stored.map Prod.fst).eraseDups.length ∧
      (entries f page).map (fun e => (e.hash, e.version, e.key)) =
        (stored.map Prod.fst).eraseDups.map (fun key =>
          (hash key, FixedKey.version K, FixedKey.write key)) ∧
      ∀ key value,
        (key ∉ stored.map Prod.fst ∧ count f page = f.perPage →
          put f (hash key) key value page = .error (.pageFull index) ∧
          store? f (hash key) key value page = some (.error (.pageFull index), page)) ∧
        (key ∈ stored.map Prod.fst ∨ count f page ≠ f.perPage → ∃ page',
          put f (hash key) key value page = .ok page' ∧
          store? f (hash key) key value page = some (.ok (), page') ∧
          ∀ k ≠ key, value? f (hash k) k page' = value? f (hash k) k page) := by
  obtain ⟨stored, page, hall, h⟩ := (shows_fresh hf hash index).storeAll hf calls
  have hkeys := ChangeSet.keys_setValues_nil stored
  have hmem (key : K) : key ∈ (ChangeSet.setValues stored []).map Prod.fst ↔
      key ∈ stored.map Prod.fst := by rw [hkeys, List.mem_eraseDups]
  refine ⟨stored, page, hall, fun key => ?_, ?_, ?_, fun key value => ?_⟩
  · rw [h.value?_eq, ChangeSet.lookup_setValues_nil]
  · rw [h.count_eq, ← hkeys, List.length_map]
  · rw [h.entries, ← hkeys, List.map_map, List.map_map]
    rfl
  · have hkey : (FixedKey.write key).length = f.keySize := (LawfulKey.length_write key).trans hf.symm
    have hstore := store?_eq h.length (hash key) hkey value
    rw [h.count_eq, ← hmem]
    rcases h.put hf key value with ⟨hroom, page', hput, -⟩ | ⟨hfull, hput⟩
    · rw [hput] at hstore
      refine ⟨fun hfull => ?_, fun _ => ⟨page', hput, hstore, fun k hk => ?_⟩⟩
      · rcases hroom with hold | hroom
        · exact absurd hold hfull.1
        · exact absurd hfull.2 (Nat.ne_of_lt hroom)
      · rw [value?_put h.length hf hash hput, if_neg hk]
    · rw [hput] at hstore
      refine ⟨fun _ => ⟨hput, hstore⟩, fun hroom => ?_⟩
      rcases hroom with hold | hroom
      · exact absurd hold hfull.1
      · exact absurd hfull.2 hroom

/-- Two keys of one hash are kept apart, and the second value of the first one moves nothing. -/
theorem storeAll?_finite_map_collision : ∃ (f : PageForm) (page : Bytes),
    f.keySize = FixedKey.size UInt64 ∧
    storeAll? f (fun _ => 7) [((1 : UInt64), 1), (2, 2), (1, 4)] (fresh 5) =
      some ([(1, 1), (2, 2), (1, 4)], page) ∧
    value? f 7 (1 : UInt64) page = some 4 ∧ value? f 7 (2 : UInt64) page = some 2 ∧
    count f page = 2 ∧ ∃ page', put f 7 (3 : UInt64) 9 page = .ok page' := by
  let f : PageForm := ⟨8, by decide⟩
  let calls : Bindings UInt64 := [(1, 1), (2, 2), (1, 4)]
  have hcalls : (storeAll? f (fun _ => 7) calls (fresh 5)).map Prod.fst = some calls := by
    decide +kernel
  obtain ⟨stored, page, hall, hvalue, hcount, -, hnext⟩ :=
    storeAll?_finite_map (f := f) (K := UInt64) rfl (fun _ => 7) 5 calls
  obtain rfl : stored = calls := by
    change storeAll? f (fun _ => 7) calls (fresh 5) = some (stored, page) at hall
    rw [hall] at hcalls
    exact Option.some.inj hcalls
  obtain ⟨page', hput, -⟩ := (hnext 3 9).2 (.inr (by rw [hcount]; decide +kernel))
  refine ⟨f, page, rfl, hall, hvalue 1, hvalue 2, hcount, page', hput⟩

end Page

end MeteredStorage
