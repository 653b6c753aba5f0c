import MeteredStorage.Proofs.Bytes
import MeteredStorage.Proofs.PagedMap.Entries

namespace MeteredStorage

open BigEndian

namespace Bytes

theorem slice_slice {offset n k m : Nat} (h : k + m ≤ n) (bs : Bytes) :
    slice k m (slice offset n bs) = slice (offset + k) m bs := by
  rw [slice, slice, slice, List.drop_take, List.drop_drop, List.take_take, Nat.min_eq_left (by omega)]

end Bytes

namespace Page

section Reading

variable (f : PageForm) (i : Nat) (page : Bytes)

def index? : Option Int32 := (Bytes.peek? 0 4 page).map toInt32

def storedCount? : Option Int32 := (Bytes.peek? 4 4 page).map toInt32

def next? : Option Int64 := (Bytes.peek? 8 8 page).map toInt64

def count? : Option Nat := do return min (← storedCount? page).toInt.toNat f.perPage

def hashAt? : Option Int32 := (Bytes.peek? (f.entryOffset i) 4 page).map toInt32

def versionAt? : Option Int32 := (Bytes.peek? (f.entryOffset i + 4) 4 page).map toInt32

def keyAt? : Option Bytes := Bytes.peek? (f.entryOffset i + 8) f.keySize page

def valueAt? : Option Int64 := (Bytes.peek? (f.entryOffset i + f.valueOffset) 8 page).map toInt64

def entryAt? : Option PageEntry := do
  return ⟨← hashAt? f i page, ← versionAt? f i page, ← keyAt? f i page, ← valueAt? f i page⟩

def listing? : Option PageListing := do
  let entries ← (List.range (← count? f page)).mapM (entryAt? f · page)
  return ⟨← index? page, ← next? page, entries⟩

def check? (bucket : UInt32) : Option (Except MapError Unit) := do
  let found ← index? page
  if found ≠ bucket.toInt32 then return .error (.pageMismatch bucket.toNat found)
  else
    let stored ← storedCount? page
    if stored.toInt < 0 ∨ f.perPage < stored.toInt then
      return .error (.pageCorrupt bucket.toNat stored)
    else return .ok ()

end Reading

section Keys

variable {K : Type} [FixedKey K] (f : PageForm) (hash : Int32) (key : K)

def isAt? (page : Bytes) (i : Nat) : Option Bool := do
  if (← hashAt? f i page) == hash then
    return FixedKey.matches? key (← versionAt? f i page) (← keyAt? f i page)
  else return false

def searchFrom? (page : Bytes) : Nat → Nat → Option (Option Nat)
  | 0, _ => some none
  | n + 1, i => do
    if ← isAt? f hash key page i then return some i else searchFrom? page n (i + 1)

def search? (page : Bytes) : Option (Option Nat) := do
  searchFrom? f hash key page (← count? f page) 0

def lookup? (page : Bytes) : Option (Option Int64) := do
  match ← search? f hash key page with
  | some i => return some (← valueAt? f i page)
  | none => return none

/-- Writes entry `n` field by field, and counts it before its value is there. -/
def append? (n : Nat) (value : Int64) (page : Bytes) : Option Bytes := do
  let offset := f.entryOffset n + f.valueOffset
  let page ← Bytes.poke? offset (f.entryOffset n) (ofInt32 hash) page
  let page ← Bytes.poke? offset (f.entryOffset n + 4) (ofInt32 (FixedKey.version K)) page
  let page ← Bytes.poke? offset (f.entryOffset n + 8) (FixedKey.write key) page
  let page ← Bytes.poke? page.length 4 (encode 4 (n + 1)) page
  Bytes.poke? (offset + 8) offset (ofInt64 value) page

def store? (value : Int64) (page : Bytes) : Option (Except MapError Unit × Bytes) := do
  match ← search? f hash key page with
  | some i =>
    let offset := f.entryOffset i + f.valueOffset
    return (.ok (), ← Bytes.poke? (offset + 8) offset (ofInt64 value) page)
  | none =>
    let n ← count? f page
    if f.perPage ≤ n then return (.error (.pageFull (← index? page)), page)
    else return (.ok (), ← append? f hash key n value page)

end Keys

inductive Confined (f : PageForm) (page page' : Bytes) : Prop
  | value (n : Nat) (hn : n < count f page)
      (h : ∀ i, i < f.entryOffset n + f.valueOffset ∨ f.entryOffset (n + 1) ≤ i →
        page'[i]? = page[i]?)
  | entry (hroom : count f page < f.perPage)
      (h : ∀ i, i < 4 ∨ 8 ≤ i → i < f.entryOffset (count f page) ∨
        f.entryOffset (count f page + 1) ≤ i → page'[i]? = page[i]?)

def inPlace (page : Bytes) : Except MapError Bytes → Except MapError Unit × Bytes
  | .ok page' => (.ok (), page')
  | .error e => (.error e, page)

variable {f : PageForm} {page : Bytes} {i n : Nat}

def entryAt (f : PageForm) (page : Bytes) (i : Nat) : PageEntry :=
  entryOf f (Bytes.slice (f.entryOffset i) f.entrySize page)

theorem entriesOf_eq_map (f : PageForm) (n : Nat) (bs : Bytes) :
    entriesOf f n bs =
      (List.range n).map fun i => entryOf f (Bytes.slice (i * f.entrySize) f.entrySize bs) := by
  induction n generalizing bs with
  | zero => rfl
  | succ n ih =>
      have hnext (i : Nat) : Bytes.slice (i * f.entrySize) f.entrySize (bs.drop f.entrySize) =
          Bytes.slice ((i + 1) * f.entrySize) f.entrySize bs := by
        rw [Bytes.slice, Bytes.slice, List.drop_drop, Nat.succ_mul, Nat.add_comm]
      rw [entriesOf, ih, List.range_succ_eq_map, List.map_cons, List.map_map, Nat.zero_mul]
      simp only [hnext]
      rfl

theorem entries_eq_map (f : PageForm) (page : Bytes) :
    entries f page = (List.range (count f page)).map (entryAt f page) := by
  have hplace (i : Nat) : Bytes.slice (i * f.entrySize) f.entrySize (page.drop PageForm.headerSize) =
      Bytes.slice (f.entryOffset i) f.entrySize page := by
    rw [Bytes.slice, Bytes.slice, List.drop_drop, PageForm.entryOffset]
  rw [entries, entriesOf_eq_map]
  simp only [hplace]
  rfl

theorem mapM_eq_some {α β : Type} {g : α → Option β} {g' : α → β} {xs : List α}
    (h : ∀ x ∈ xs, g x = some (g' x)) : xs.mapM g = some (xs.map g') := by
  induction xs with
  | nil => rfl
  | cons x xs ih =>
      rw [List.mapM_cons, h x (List.mem_cons_self ..), ih fun y hy => h y (List.mem_cons_of_mem _ hy)]
      rfl

section Bounds

variable (hl : page.length = pageSize)
include hl

theorem peek?_entry (hi : i < f.perPage) {k m : Nat} (hk : k + m ≤ f.entrySize) :
    Bytes.peek? (f.entryOffset i + k) m page =
      some (Bytes.slice k m (Bytes.slice (f.entryOffset i) f.entrySize page)) := by
  have hroom := PageForm.entryOffset_le (Nat.succ_le_of_lt hi)
  rw [PageForm.entryOffset_succ] at hroom
  rw [Bytes.slice_slice hk, Bytes.peek?_eq_some]
  omega

theorem hashAt?_eq (hi : i < f.perPage) : hashAt? f i page = some (entryAt f page i).hash := by
  have hfield : 0 + 4 ≤ f.entrySize := by
    rw [PageForm.entrySize]
    omega
  exact congrArg (Option.map toInt32) (peek?_entry hl hi hfield)

theorem versionAt?_eq (hi : i < f.perPage) : versionAt? f i page = some (entryAt f page i).version := by
  have hfield : 4 + 4 ≤ f.entrySize := by
    rw [PageForm.entrySize]
    omega
  exact congrArg (Option.map toInt32) (peek?_entry hl hi hfield)

theorem keyAt?_eq (hi : i < f.perPage) : keyAt? f i page = some (entryAt f page i).key := by
  have hfield : 8 + f.keySize ≤ f.entrySize := by
    rw [PageForm.entrySize, PageForm.valueOffset]
    omega
  exact peek?_entry hl hi hfield

theorem valueAt?_eq (hi : i < f.perPage) : valueAt? f i page = some (entryAt f page i).value :=
  congrArg (Option.map toInt64) (peek?_entry hl hi (Nat.le_refl f.entrySize))

theorem index?_eq : index? page = some (index page) := by
  rw [index?, Bytes.peek?_eq_some (by rw [hl]; decide)]
  rfl

theorem storedCount?_eq : storedCount? page = some (storedCount page) := by
  rw [storedCount?, Bytes.peek?_eq_some (by rw [hl]; decide)]
  rfl

theorem next?_eq : next? page = some (next page) := by
  rw [next?, Bytes.peek?_eq_some (by rw [hl]; decide)]
  rfl

theorem count?_eq (f : PageForm) : count? f page = some (count f page) := by
  rw [count?, storedCount?_eq hl]
  rfl

theorem entryAt?_eq (hi : i < f.perPage) : entryAt? f i page = some (entryAt f page i) := by
  rw [entryAt?, hashAt?_eq hl hi, versionAt?_eq hl hi, keyAt?_eq hl hi, valueAt?_eq hl hi]
  rfl

theorem listing?_eq (f : PageForm) : listing? f page = some (listing f page) := by
  have hentries : (List.range (count f page)).mapM (entryAt? f · page) = some (entries f page) := by
    rw [entries_eq_map]
    refine mapM_eq_some fun i hi => entryAt?_eq hl ?_
    exact Nat.lt_of_lt_of_le (List.mem_range.mp hi) (count_le_perPage f page)
  rw [listing?, count?_eq hl, Option.bind_eq_bind, Option.bind_some, hentries, index?_eq hl, next?_eq hl]
  rfl

theorem check?_eq (f : PageForm) {bucket : UInt32} (hb : bucket.toNat < 0x80000000) :
    check? f page bucket = some (validate f bucket.toNat page) := by
  have hword : bucket.toInt32.toInt = bucket.toNat := by
    rw [Int32.toInt, UInt32.toBitVec_toInt32, BitVec.toInt_eq_toNat_of_lt]
    · rfl
    · change 2 * bucket.toNat < 2 ^ 32
      omega
  have hindex : index page = bucket.toInt32 ↔ (index page).toInt = bucket.toNat := by
    rw [← hword, Int32.toInt_inj]
  rw [check?, index?_eq hl, storedCount?_eq hl, validate, Option.bind_eq_bind, Option.bind_some]
  by_cases hother : index page = bucket.toInt32
  · rw [if_neg (not_not_intro hother), if_neg (not_not_intro (hindex.mp hother)), Option.bind_some]
    split <;> rfl
  · rw [if_pos hother, if_pos (mt hindex.mpr hother)]
    rfl

theorem check?_eq_ok_iff (f : PageForm) (bucket : UInt32) : check? f page bucket = some (.ok ()) ↔
    index page = bucket.toInt32 ∧ 0 ≤ (storedCount page).toInt ∧
      (storedCount page).toInt ≤ f.perPage := by
  rw [check?, index?_eq hl, storedCount?_eq hl, Option.bind_eq_bind, Option.bind_some]
  by_cases hindex : index page = bucket.toInt32
  · rw [if_neg (not_not_intro hindex), Option.bind_some]
    by_cases hcount : (storedCount page).toInt < 0 ∨ f.perPage < (storedCount page).toInt
    · rw [if_pos hcount]
      simp only [pure, Option.some.injEq, reduceCtorEq, false_iff]
      omega
    · rw [if_neg hcount]
      simp only [pure, true_iff]
      exact ⟨hindex, by omega, by omega⟩
  · rw [if_pos hindex]
    simp [hindex, pure]

section Keys

variable {K : Type} [FixedKey K] (hash : Int32) (key : K)

theorem isAt?_eq (hi : i < f.perPage) :
    isAt? f hash key page i = some (isFor hash key (entryAt f page i)) := by
  rw [isAt?, hashAt?_eq hl hi, versionAt?_eq hl hi, keyAt?_eq hl hi, isFor]
  simp only [Option.bind_eq_bind, Option.bind_some]
  cases (entryAt f page i).hash == hash <;> rfl

theorem searchFrom?_eq (hi : i + n ≤ f.perPage) : searchFrom? f hash key page n i =
    some ((((List.range' i n).map (entryAt f page)).findIdx? (isFor hash key)).map (i + ·)) := by
  induction n generalizing i with
  | zero => rfl
  | succ n ih =>
      rw [searchFrom?, isAt?_eq hl hash key (by omega), List.range'_succ, List.map_cons,
        List.findIdx?_cons, Option.bind_eq_bind, Option.bind_some]
      cases isFor hash key (entryAt f page i) with
      | true => rfl
      | false =>
          rw [ih (by omega)]
          simp [Function.comp_def, Nat.add_assoc, Nat.add_comm 1]

theorem search?_eq (f : PageForm) :
    search? f hash key page = some ((entries f page).findIdx? (isFor hash key)) := by
  have hall := searchFrom?_eq (f := f) (i := 0) hl hash key (n := count f page)
    (by rw [Nat.zero_add]; exact count_le_perPage f page)
  rw [search?, count?_eq hl, Option.bind_eq_bind, Option.bind_some, hall, ← List.range_eq_range',
    ← entries_eq_map]
  simp

theorem lookup?_eq (f : PageForm) : lookup? f hash key page = some (value? f hash key page) := by
  rw [lookup?, search?_eq hl, value?, List.find?_eq_bind_findIdx?_getElem?, Option.bind_eq_bind,
    Option.bind_some]
  cases hfound : (entries f page).findIdx? (isFor hash key) with
  | none => rfl
  | some i =>
      have hi := lt_count_of_findIdx? hfound
      have hentry : (entries f page)[i]? = some (entryAt f page i) := by
        rw [entries_eq_map, List.getElem?_map, List.getElem?_range hi, Option.map_some]
      change (do return some (← valueAt? f i page)) = some (((entries f page)[i]?).map PageEntry.value)
      rw [hentry, valueAt?_eq hl (Nat.lt_of_lt_of_le hi (count_le_perPage f page))]
      rfl

theorem entryOffset_room (hi : i < f.perPage) :
    f.entryOffset i + f.valueOffset + 8 ≤ page.length ∧ 16 ≤ f.entryOffset i := by
  have hroom := PageForm.entryOffset_le (Nat.succ_le_of_lt hi)
  rw [PageForm.entryOffset_succ, PageForm.entrySize, ← Nat.add_assoc, ← hl] at hroom
  exact ⟨hroom, Nat.le_add_right ..⟩

theorem append?_eq (hroom : count f page < f.perPage) {key : K}
    (hkey : (FixedKey.write key).length = f.keySize) (value : Int64) :
    append? f hash key (count f page) value page = some (addEntry f hash key value page) := by
  obtain ⟨hin, hheader⟩ := entryOffset_room hl hroom
  have hoffset : f.valueOffset = 8 + f.keySize := rfl
  rw [append?, addEntry]
  generalize f.entryOffset (count f page) = offset at *
  have hhash := length_ofInt32 hash
  have hversion := length_ofInt32 (FixedKey.version K)
  have hvalue := length_ofInt64 value
  have hcount := length_encode 4 (count f page + 1)
  -- No write changes the length, so each of them has the room that there is on the page.
  have hpage1 : (Bytes.overlay offset (ofInt32 hash) page).length = page.length :=
    Bytes.length_overlay_of_le (by omega)
  generalize hdef1 : Bytes.overlay offset (ofInt32 hash) page = page1 at *
  have hpage2 : (Bytes.overlay (offset + 4) (ofInt32 (FixedKey.version K)) page1).length = page.length :=
    (Bytes.length_overlay_of_le (by omega)).trans hpage1
  generalize hdef2 : Bytes.overlay (offset + 4) (ofInt32 (FixedKey.version K)) page1 = page2 at *
  have hpage3 : (Bytes.overlay (offset + 8) (FixedKey.write key) page2).length = page.length :=
    (Bytes.length_overlay_of_le (by omega)).trans hpage2
  generalize hdef3 : Bytes.overlay (offset + 8) (FixedKey.write key) page2 = page3 at *
  have hpage4 : (Bytes.overlay 4 (encode 4 (count f page + 1)) page3).length = page.length :=
    (Bytes.length_overlay_of_le (by omega)).trans hpage3
  have hentry : Bytes.overlay offset (ofInt32 hash ++ ofInt32 (FixedKey.version K) ++
      FixedKey.write key ++ ofInt64 value) page =
      Bytes.overlay (offset + f.valueOffset) (ofInt64 value) page3 := by
    rw [Bytes.overlay_append, Bytes.overlay_append, Bytes.overlay_append]
    simp only [List.length_append, hhash, hversion, hkey, hdef1, hdef2, hdef3, hoffset]
  rw [hentry, Bytes.overlay_comm (by omega) (by omega), Bytes.poke?_bind (by omega) (by omega), hdef1,
    Bytes.poke?_bind (by omega) (by omega), hdef2, Bytes.poke?_bind (by omega) (by omega), hdef3,
    Bytes.poke?_bind (by omega) (by omega), Bytes.poke?_eq_some (by omega) (by omega)]

theorem store?_eq {key : K} (hkey : (FixedKey.write key).length = f.keySize) (value : Int64) :
    store? f hash key value page = some (inPlace page (put f hash key value page)) := by
  rw [store?, search?_eq hl, put, Option.bind_eq_bind, Option.bind_some]
  cases hfound : (entries f page).findIdx? (isFor hash key) with
  | some i =>
      have hi := lt_count_of_findIdx? hfound
      obtain ⟨hin, -⟩ := entryOffset_room hl (Nat.lt_of_lt_of_le hi (count_le_perPage f page))
      have hvalue : f.entryOffset i + f.valueOffset + (ofInt64 value).length ≤
          f.entryOffset i + f.valueOffset + 8 := Nat.le_of_eq (by rw [length_ofInt64])
      simp only [Bytes.poke?_eq_some hvalue hin]
      rfl
  | none =>
      simp only [count?_eq hl, Option.bind_eq_bind, Option.bind_some]
      by_cases hfull : f.perPage ≤ count f page
      · rw [if_pos hfull, if_pos hfull, index?_eq hl]
        rfl
      · rw [if_neg hfull, if_neg hfull, append?_eq hl hash (Nat.lt_of_not_le hfull) hkey]
        rfl

theorem confined_of_put {key : K} (hkey : (FixedKey.write key).length = f.keySize) {hash : Int32}
    {value : Int64} {page' : Bytes} (h : put f hash key value page = .ok page') :
    Confined f page page' := by
  have hvalue := length_ofInt64 value
  rcases put_cases hl hkey hash value with
    ⟨page1, before, e, after, hput, hover, -, -, -, hold, -⟩ |
    ⟨-, ⟨hroom, page1, hput, hadd, -⟩ | ⟨-, hput⟩⟩
  · obtain rfl : page1 = page' := Except.ok.inj (hput.symm.trans h)
    have hn : before.length < count f page := by
      rw [← length_entriesOf (f := f) (count f page) (page.drop PageForm.headerSize), ← entries, hold]
      simp
    obtain ⟨hin, -⟩ := entryOffset_room hl (Nat.lt_of_lt_of_le hn (count_le_perPage f page))
    refine .value before.length hn fun i hi => ?_
    rw [PageForm.entryOffset_succ, PageForm.entrySize] at hi
    rw [← hover]
    exact Bytes.getElem?_overlay_outside (by omega) (by omega)
  · obtain rfl : page1 = page' := Except.ok.inj (hput.symm.trans h)
    obtain ⟨hin, -⟩ := entryOffset_room hl hroom
    refine .entry hroom fun i hcount hi => ?_
    rw [PageForm.entryOffset_succ, PageForm.entrySize] at hi
    have hentry : (ofInt32 hash ++ ofInt32 (FixedKey.version K) ++ FixedKey.write key ++
        ofInt64 value).length = f.valueOffset + 8 := by
      simp only [List.length_append, length_ofInt32, hkey, hvalue, PageForm.valueOffset]
    have hstored := length_encode 4 (count f page + 1)
    rw [← hadd, addEntry]
    rw [Bytes.getElem?_overlay_outside (by rw [Bytes.length_overlay]; omega) (by omega),
      Bytes.getElem?_overlay_outside (by omega) (by omega)]
  · rw [h] at hput
    cases hput

end Keys

end Bounds

/--
Lookups, listings, checks and stores stay inside the page, whatever its bytes are. Storing changes one
value, or the count and the one new entry, and a page that is in order for its bucket stays so.
-/
theorem accesses_confined {K : Type} [FixedKey K] (hl : page.length = pageSize) :
    (∀ (hash : Int32) (key : K), lookup? f hash key page = some (value? f hash key page)) ∧
    listing? f page = some (listing f page) ∧
    (∀ bucket : UInt32, bucket.toNat < 0x80000000 →
      check? f page bucket = some (validate f bucket.toNat page)) ∧
    ∀ (hash : Int32) (key : K) (value : Int64), (FixedKey.write key).length = f.keySize →
      store? f hash key value page = some (inPlace page (put f hash key value page)) ∧
      ∀ page', put f hash key value page = .ok page' → page'.length = pageSize ∧
        Confined f page page' ∧
        (∀ bucket, check? f page bucket = some (.ok ()) → check? f page' bucket = some (.ok ())) ∧
        ∀ bucket, validate f bucket page = .ok () → validate f bucket page' = .ok () := by
  refine ⟨fun hash key => lookup?_eq hl hash key f, listing?_eq hl f, fun _ => check?_eq hl f, ?_⟩
  intro hash key value hkey
  refine ⟨store?_eq hl hash hkey value, fun page' hput => ?_⟩
  obtain ⟨hlength, hindex, hstored⟩ := counts_of_put hl hkey hput
  refine ⟨hlength, confined_of_put hl hkey hput, fun bucket hcheck => ?_, fun bucket hvalid => ?_⟩
  · obtain ⟨hbucket, hcount⟩ := (check?_eq_ok_iff hl f bucket).mp hcheck
    exact (check?_eq_ok_iff hlength f bucket).mpr ⟨hindex.trans hbucket, hstored hcount⟩
  · exact ((valid_of_validate hl hvalid).of_put hkey hput).validate

/-- A page whose two entries are garbage, and which is in order for its bucket all the same. -/
theorem accesses_confined_garbage : ∃ (f : PageForm) (page page' : Bytes),
    page.length = pageSize ∧ (FixedKey.write (5 : UInt64)).length = f.keySize ∧
    check? f page 3 = some (validate f 3 page) ∧ check? f page 3 = some (.ok ()) ∧
    put f 9 (5 : UInt64) 7 page = .ok page' ∧ store? f 9 (5 : UInt64) 7 page = some (.ok (), page') ∧
    Confined f page page' ∧ check? f page' 3 = some (.ok ()) ∧ validate f 3 page' = .ok () := by
  let f : PageForm := ⟨8, by decide⟩
  let page := Bytes.overlay 0 (encode 4 3 ++ encode 4 2) (List.replicate 4096 0xff)
  have hl : page.length = pageSize := by decide +kernel
  have hcheck : check? f page 3 = some (.ok ()) :=
    (check?_eq_ok_iff hl f 3).mpr (by decide +kernel)
  have hsome : (put f 9 (5 : UInt64) 7 page).isOk := by decide +kernel
  obtain ⟨-, -, hvalidate, hstores⟩ := accesses_confined (f := f) (K := UInt64) hl
  obtain ⟨hstore, hput⟩ := hstores 9 5 7 (length_ofWord64 5)
  cases h : put f 9 (5 : UInt64) 7 page with
  | error e =>
      rw [h] at hsome
      cases hsome
  | ok page' =>
      obtain ⟨-, hconfined, hchecks, hvalid⟩ := hput page' h
      have hword := hvalidate 3 (by decide)
      rw [h] at hstore
      exact ⟨f, page, page', hl, length_ofWord64 5, hword, hcheck, h, hstore, hconfined,
        hchecks 3 hcheck, hvalid 3 (Option.some.inj (hword.symm.trans hcheck))⟩

end Page

end MeteredStorage
