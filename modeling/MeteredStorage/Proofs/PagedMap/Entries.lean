import MeteredStorage.Proofs.Archive.Damage
import MeteredStorage.Proofs.PagedMap.Image

namespace MeteredStorage

open BigEndian

namespace Page

structure Valid (f : PageForm) (bucket : Nat) (page : Bytes) : Prop where
  length : page.length = pageSize
  index : (index page).toInt = bucket
  count_nonneg : 0 ≤ (storedCount page).toInt
  count_le : (storedCount page).toInt ≤ f.perPage

structure Parts where
  index : Bytes
  count : Bytes
  next : Bytes
  before : Bytes
  entry : Bytes
  after : Bytes

namespace Parts

def bytes (p : Parts) : Bytes :=
  p.index ++ (p.count ++ (p.next ++ (p.before ++ (p.entry ++ p.after))))

structure Fit (f : PageForm) (n : Nat) (p : Parts) : Prop where
  index : p.index.length = 4
  count : p.count.length = 4
  next : p.next.length = 8
  before : p.before.length = n * f.entrySize
  entry : p.entry.length = f.entrySize

end Parts

variable {f : PageForm} {bucket n : Nat} {page : Bytes} {p : Parts}

theorem validate_eq_ok : validate f bucket page = .ok () ↔ (index page).toInt = bucket ∧
    0 ≤ (storedCount page).toInt ∧ (storedCount page).toInt ≤ f.perPage := by
  unfold validate
  split
  · simp_all
  · split
    · simp only [reduceCtorEq, false_iff]
      omega
    · simp only [true_iff]
      omega

theorem valid_of_validate (hl : page.length = pageSize) (h : validate f bucket page = .ok ()) :
    Valid f bucket page :=
  have ⟨hindex, hnonneg, hle⟩ := validate_eq_ok.mp h
  ⟨hl, hindex, hnonneg, hle⟩

theorem Valid.validate (h : Valid f bucket page) : Page.validate f bucket page = .ok () :=
  validate_eq_ok.mpr ⟨h.index, h.count_nonneg, h.count_le⟩

theorem count_le_perPage (f : PageForm) (page : Bytes) : count f page ≤ f.perPage :=
  Nat.min_le_right ..

section Parts

theorem length_entriesOf (n : Nat) (bs : Bytes) : (entriesOf f n bs).length = n := by
  induction n generalizing bs with
  | zero => rfl
  | succ n ih => rw [entriesOf, List.length_cons, ih]

theorem entriesOf_add {m : Nat} {front : Bytes} (h : front.length = m * f.entrySize) (n : Nat)
    (rest : Bytes) :
    entriesOf f (m + n) (front ++ rest) = entriesOf f m front ++ entriesOf f n rest := by
  induction m generalizing front with
  | zero =>
      rw [Nat.zero_mul] at h
      rw [List.eq_nil_of_length_eq_zero h, Nat.zero_add]
      rfl
  | succ m ih =>
      rw [Nat.succ_mul] at h
      have htake : (front ++ rest).take f.entrySize = front.take f.entrySize :=
        List.take_append_of_le_length (by omega)
      have hdrop : (front ++ rest).drop f.entrySize = front.drop f.entrySize ++ rest :=
        List.drop_append_of_le_length (by omega)
      have hrest : (front.drop f.entrySize).length = m * f.entrySize := by
        rw [List.length_drop]
        omega
      rw [Nat.add_right_comm, entriesOf, entriesOf, htake, hdrop, ih hrest,
        List.cons_append]

theorem Parts.Fit.index_bytes (h : p.Fit f n) : Page.index p.bytes = toInt32 p.index := by
  rw [Page.index, Parts.bytes, List.take_left' h.index]

theorem Parts.Fit.storedCount_bytes (h : p.Fit f n) : storedCount p.bytes = toInt32 p.count := by
  rw [storedCount, Parts.bytes, Bytes.slice, List.drop_left' h.index, List.take_left' h.count]

theorem Parts.Fit.entries_bytes (h : p.Fit f n) :
    entries f p.bytes = entriesOf f (Page.count f p.bytes) (p.before ++ (p.entry ++ p.after)) := by
  have hd : p.bytes.drop PageForm.headerSize = p.before ++ (p.entry ++ p.after) := by
    rw [Parts.bytes, ← List.append_assoc, ← List.append_assoc]
    refine List.drop_left' ?_
    simp only [List.length_append, h.index, h.count, h.next, PageForm.headerSize]
  rw [entries, hd]

theorem Parts.Fit.entries_around (h : p.Fit f n) {m : Nat}
    (hm : Page.count f p.bytes = n + (m + 1)) :
    entries f p.bytes = entriesOf f n p.before ++ entryOf f p.entry :: entriesOf f m p.after := by
  rw [h.entries_bytes, hm, entriesOf_add h.before, entriesOf, List.take_left' h.entry,
    List.drop_left' h.entry]

theorem Parts.Fit.length_front (h : p.Fit f n) :
    (p.index ++ (p.count ++ (p.next ++ p.before))).length = f.entryOffset n := by
  simp only [List.length_append, h.index, h.count, h.next, h.before, PageForm.entryOffset,
    PageForm.headerSize]
  omega

theorem exists_parts (hl : page.length = pageSize) (hn : n < f.perPage) :
    ∃ p : Parts, page = p.bytes ∧ p.Fit f n := by
  have hroom := PageForm.entryOffset_le (Nat.succ_le_of_lt hn)
  rw [PageForm.entryOffset_succ, PageForm.entryOffset, PageForm.headerSize] at hroom
  let body := page.drop 16
  have hbody : body.length = pageSize - 16 := by rw [List.length_drop, hl]
  refine ⟨⟨page.take 4, (page.drop 4).take 4, (page.drop 8).take 8, body.take (n * f.entrySize),
    (body.drop (n * f.entrySize)).take f.entrySize,
    (body.drop (n * f.entrySize)).drop f.entrySize⟩, ?_, ?_, ?_, ?_, ?_, ?_⟩
  · have hnext : (page.drop 8).drop 8 = body := by rw [List.drop_drop]
    have hcount : (page.drop 4).drop 4 = page.drop 8 := by rw [List.drop_drop]
    rw [Parts.bytes, List.take_append_drop, List.take_append_drop, ← hnext, List.take_append_drop,
      ← hcount, List.take_append_drop, List.take_append_drop]
  all_goals
    simp only [List.length_take, List.length_drop, hbody, hl]
    omega

end Parts

theorem entryOf_append {front : Bytes} (h : front.length = f.valueOffset) {value : Bytes}
    (hv : value.length = 8) : entryOf f (front ++ value) =
      ⟨toInt32 (Bytes.slice 0 4 front), toInt32 (Bytes.slice 4 4 front),
        Bytes.slice 8 f.keySize front, toInt64 value⟩ := by
  have hoffset : f.valueOffset = 8 + f.keySize := rfl
  have hbefore (m k : Nat) (hm : m + k ≤ f.valueOffset) :
      ((front ++ value).drop m).take k = Bytes.slice m k front := by
    rw [Bytes.slice, List.drop_append_of_le_length (by omega),
      List.take_append_of_le_length (by rw [List.length_drop]; omega)]
  have hhash : (front ++ value).take 4 = Bytes.slice 0 4 front := hbefore 0 4 (by omega)
  have hvalue : Bytes.slice f.valueOffset 8 (front ++ value) = value := by
    rw [Bytes.slice, List.drop_left' h, List.take_of_length_le (Nat.le_of_eq hv)]
  have hversion : Bytes.slice 4 4 (front ++ value) = Bytes.slice 4 4 front := hbefore 4 4 (by omega)
  have hkey : Bytes.slice 8 f.keySize (front ++ value) = Bytes.slice 8 f.keySize front :=
    hbefore 8 f.keySize (by omega)
  rw [entryOf, hhash, hversion, hkey, hvalue]

theorem entryOf_overlay_value {entry : Bytes} (h : entry.length = f.entrySize) (value : Int64) :
    entryOf f (Bytes.overlay f.valueOffset (ofInt64 value) entry) =
      { entryOf f entry with value := value } := by
  rw [PageForm.entrySize] at h
  obtain ⟨front, old, rfl, hfront, hold⟩ : ∃ front old, entry = front ++ old ∧
      front.length = f.valueOffset ∧ old.length = 8 :=
    ⟨entry.take f.valueOffset, entry.drop f.valueOffset, (List.take_append_drop ..).symm,
      by rw [List.length_take]; omega, by rw [List.length_drop]; omega⟩
  have hlength : (ofInt64 value).length = old.length := by rw [length_ofInt64, hold]
  have hover := Bytes.overlay_middle hlength front []
  rw [List.append_nil, List.append_nil, hfront] at hover
  rw [hover, entryOf_append hfront hold, entryOf_append hfront (length_ofInt64 value), toInt64_ofInt64]

/-- Writing over the value of an entry leaves all else on a page, whatever its bytes. -/
theorem overwritten (hl : page.length = pageSize) {i : Nat} (hi : i < count f page) (value : Int64) :
    ∃ page', Bytes.overlay (f.entryOffset i + f.valueOffset) (ofInt64 value) page = page' ∧
      page'.length = pageSize ∧ index page' = index page ∧ storedCount page' = storedCount page ∧
      ∃ before e after, before.length = i ∧ entries f page = before ++ e :: after ∧
        entries f page' = before ++ { e with value := value } :: after := by
  have hroom : i < f.perPage := Nat.lt_of_lt_of_le hi (Nat.min_le_right ..)
  obtain ⟨p, rfl, hp⟩ := exists_parts hl hroom
  let p' : Parts := { p with entry := Bytes.overlay f.valueOffset (ofInt64 value) p.entry }
  have hin : f.valueOffset + (ofInt64 value).length ≤ p.entry.length :=
    Nat.le_of_eq (by rw [hp.entry, length_ofInt64, PageForm.entrySize])
  have hentry : p'.entry.length = f.entrySize := (Bytes.length_overlay_of_le hin).trans hp.entry
  have hp' : p'.Fit f i := ⟨hp.index, hp.count, hp.next, hp.before, hentry⟩
  have hover : Bytes.overlay (f.entryOffset i + f.valueOffset) (ofInt64 value) p.bytes = p'.bytes := by
    have ho := Bytes.overlay_inside hin (p.index ++ (p.count ++ (p.next ++ p.before))) p.after
    rw [hp.length_front] at ho
    simpa only [Parts.bytes, p', List.append_assoc] using ho
  have hstored : storedCount p'.bytes = storedCount p.bytes := by
    rw [hp'.storedCount_bytes, hp.storedCount_bytes]
  have hcount : count f p'.bytes = count f p.bytes := by rw [count, count, hstored]
  obtain ⟨m, hm⟩ : ∃ m, count f p.bytes = i + (m + 1) := ⟨count f p.bytes - i - 1, by omega⟩
  refine ⟨_, hover, ?_, ?_, hstored, entriesOf f i p.before, entryOf f p.entry,
    entriesOf f m p.after, length_entriesOf .., hp.entries_around hm, ?_⟩
  · rw [← hl]
    simp only [Parts.bytes, List.length_append, hentry, hp.entry, p']
  · rw [hp'.index_bytes, hp.index_bytes]
  · rw [hp'.entries_around (hcount.trans hm), entryOf_overlay_value hp.entry]

variable {K : Type} [FixedKey K]

theorem entryOf_written {key : K} (hkey : (FixedKey.write key).length = f.keySize) (hash : Int32)
    (value : Int64) :
    entryOf f (ofInt32 hash ++ ofInt32 (FixedKey.version K) ++ FixedKey.write key ++ ofInt64 value) =
      ⟨hash, FixedKey.version K, FixedKey.write key, value⟩ := by
  let front := ofInt32 hash ++ ofInt32 (FixedKey.version K) ++ FixedKey.write key
  have hfront : front.length = f.valueOffset := by
    simp only [front, List.length_append, length_ofInt32, hkey, PageForm.valueOffset]
  have hhash : Bytes.slice 0 4 front = ofInt32 hash := by
    simp [front, Bytes.slice]
  have hversion : Bytes.slice 4 4 front = ofInt32 (FixedKey.version K) := by
    simp [front, Bytes.slice]
  have hwritten : Bytes.slice 8 f.keySize front = FixedKey.write key := by
    rw [Bytes.slice, List.drop_left' (by simp), ← hkey, List.take_length]
  rw [entryOf_append hfront (length_ofInt64 value), hhash, hversion, hwritten, toInt32_ofInt32,
    toInt32_ofInt32, toInt64_ofInt64]

theorem added (hl : page.length = pageSize) (hroom : count f page < f.perPage) {key : K}
    (hkey : (FixedKey.write key).length = f.keySize) (hash : Int32) (value : Int64) :
    ∃ page', addEntry f hash key value page = page' ∧ page'.length = pageSize ∧
      index page' = index page ∧ (storedCount page').toInt = (count f page + 1 : Nat) ∧
      entries f page' =
        entries f page ++ [⟨hash, FixedKey.version K, FixedKey.write key, value⟩] := by
  obtain ⟨p, hpage, hp⟩ := exists_parts hl hroom
  let n := count f page
  let entry := ofInt32 hash ++ ofInt32 (FixedKey.version K) ++ FixedKey.write key ++ ofInt64 value
  have hentry : entry.length = f.entrySize := by
    simp only [entry, List.length_append, length_ofInt32, length_ofInt64, hkey, PageForm.entrySize,
      PageForm.valueOffset]
  let p' : Parts := { p with count := encode 4 (n + 1), entry := entry }
  have hp' : p'.Fit f n := ⟨hp.index, length_encode .., hp.next, hp.before, hentry⟩
  have hadd : addEntry f hash key value page = p'.bytes := by
    have hover := Bytes.overlay_middle (hentry.trans hp.entry.symm)
      (p.index ++ (p.count ++ (p.next ++ p.before))) p.after
    have hcounted := Bytes.overlay_middle ((length_encode 4 (n + 1)).trans hp.count.symm) p.index
      (p.next ++ (p.before ++ (entry ++ p.after)))
    rw [hp.length_front] at hover
    rw [hp.index] at hcounted
    simp only [List.append_assoc] at hover
    change Bytes.overlay 4 (encode 4 (n + 1)) (Bytes.overlay (f.entryOffset n) entry page) = _
    rw [hpage, Parts.bytes, hover, hcounted]
    rfl
  have hstored : (storedCount p'.bytes).toInt = (n + 1 : Nat) := by
    rw [hp'.storedCount_bytes]
    exact toInt_toInt32_encode (Nat.lt_of_le_of_lt (Nat.le_trans hroom f.perPage_le) (by decide))
  have hcount : count f p'.bytes = n + (0 + 1) := by
    rw [count, hstored]
    omega
  refine ⟨_, hadd, ?_, ?_, hstored, ?_⟩
  · rw [← hl, hpage]
    simp only [Parts.bytes, List.length_append, hentry, hp.entry, hp.count, length_encode, p']
  · rw [hp'.index_bytes, hpage, hp.index_bytes]
  · have hold : entries f page = entriesOf f n p.before := by
      rw [hpage, hp.entries_bytes, ← hpage, ← Nat.add_zero (count f page), entriesOf_add hp.before]
      exact List.append_nil _
    rw [hp'.entries_around hcount, hold, entryOf_written hkey]
    rfl

theorem of_findIdx? {α : Type} {q : α → Bool} {before after : List α} {e : α}
    (h : (before ++ e :: after).findIdx? q = some before.length) : (∀ x ∈ before, ¬q x) ∧ q e := by
  obtain ⟨hlt, hfor, hbefore⟩ := List.findIdx?_eq_some_iff_getElem.mp h
  refine ⟨fun x hx => ?_, ?_⟩
  · obtain ⟨j, hj, rfl⟩ := List.getElem_of_mem hx
    have hnot := hbefore j hj
    rwa [List.getElem_append_left hj] at hnot
  · simpa using hfor

theorem lt_count_of_findIdx? {p : PageEntry → Bool} {i : Nat}
    (h : (entries f page).findIdx? p = some i) : i < count f page := by
  obtain ⟨hi, -⟩ := List.findIdx?_eq_some_iff_getElem.mp h
  rwa [entries, length_entriesOf] at hi

/-- A value is stored in the first entry of its key, or in a new one, or there is no room for one. -/
theorem put_cases (hl : page.length = pageSize) {key : K}
    (hkey : (FixedKey.write key).length = f.keySize) (hash : Int32) (value : Int64) :
    (∃ page' before e after, put f hash key value page = .ok page' ∧
      Bytes.overlay (f.entryOffset before.length + f.valueOffset) (ofInt64 value) page = page' ∧
      page'.length = pageSize ∧ index page' = index page ∧ storedCount page' = storedCount page ∧
      entries f page = before ++ e :: after ∧
      entries f page' = before ++ { e with value := value } :: after ∧
      (∀ x ∈ before, ¬isFor hash key x) ∧ isFor hash key e) ∨
    (∀ x ∈ entries f page, ¬isFor hash key x) ∧
      ((count f page < f.perPage ∧ ∃ page', put f hash key value page = .ok page' ∧
        addEntry f hash key value page = page' ∧ page'.length = pageSize ∧
        index page' = index page ∧ (storedCount page').toInt = (count f page + 1 : Nat) ∧
        entries f page' =
          entries f page ++ [⟨hash, FixedKey.version K, FixedKey.write key, value⟩]) ∨
      f.perPage ≤ count f page ∧
        put f hash key value page = .error (.pageFull (Page.index page))) := by
  rw [put]
  cases hfound : (entries f page).findIdx? (isFor hash key) with
  | some i =>
      have hi := lt_count_of_findIdx? hfound
      obtain ⟨page', hpage', hlength, hindex, hstored, before, e, after, rfl, hold, hnew⟩ :=
        overwritten hl hi value
      rw [hold] at hfound
      obtain ⟨hbefore, hfor⟩ := of_findIdx? hfound
      exact .inl ⟨page', before, e, after, congrArg _ hpage', hpage', hlength, hindex, hstored, hold,
        hnew, hbefore, hfor⟩
  | none =>
      have habsent := List.findIdx?_eq_none_iff.mp hfound
      refine .inr ⟨fun x hx => Bool.eq_false_iff.mp (habsent x hx), ?_⟩
      by_cases hfull : f.perPage ≤ count f page
      · exact .inr ⟨hfull, if_pos hfull⟩
      · have hroom := Nat.lt_of_not_le hfull
        obtain ⟨page', hpage', hadded⟩ := added hl hroom hkey hash value
        exact .inl ⟨hroom, page', (if_neg hfull).trans (congrArg _ hpage'), hpage', hadded⟩

/-- Storing a value leaves the count as it is, or one more than the entries that there were. -/
theorem counts_of_put (hl : page.length = pageSize) {key : K}
    (hkey : (FixedKey.write key).length = f.keySize) {hash : Int32} {value : Int64} {page' : Bytes}
    (h : put f hash key value page = .ok page') :
    page'.length = pageSize ∧ index page' = index page ∧
      (0 ≤ (storedCount page).toInt ∧ (storedCount page).toInt ≤ f.perPage →
        0 ≤ (storedCount page').toInt ∧ (storedCount page').toInt ≤ f.perPage) := by
  rcases put_cases hl hkey hash value with
    ⟨page1, -, -, -, hput, -, hlength, hindex, hstored, -⟩ |
    ⟨-, ⟨hroom, page1, hput, -, hlength, hindex, hstored, -⟩ | ⟨-, hput⟩⟩
  · obtain rfl : page1 = page' := Except.ok.inj (hput.symm.trans h)
    exact ⟨hlength, hindex, fun hcount => hstored ▸ hcount⟩
  · obtain rfl : page1 = page' := Except.ok.inj (hput.symm.trans h)
    exact ⟨hlength, hindex, fun _ => ⟨by omega, by omega⟩⟩
  · rw [h] at hput
    cases hput

theorem Valid.of_put (h : Valid f bucket page) {key : K}
    (hkey : (FixedKey.write key).length = f.keySize) {hash : Int32} {value : Int64} {page' : Bytes}
    (hput : put f hash key value page = .ok page') : Valid f bucket page' := by
  obtain ⟨hlength, hindex, hcount⟩ := counts_of_put h.length hkey hput
  obtain ⟨hnonneg, hle⟩ := hcount ⟨h.count_nonneg, h.count_le⟩
  exact ⟨hlength, hindex ▸ h.index, hnonneg, hle⟩

section Keys

variable [DecidableEq K] [LawfulKey K]

theorem valid_fresh (K : Type) [FixedKey K] [DecidableEq K] [LawfulKey K]
    (hf : f.keySize = FixedKey.size K) (hb : bucket < 0x80000000) : Valid f bucket (fresh bucket) := by
  have hl : ([] : Bindings K).length ≤ f.perPage := Nat.zero_le _
  rw [fresh_eq (K := K) f]
  exact valid_of_validate (length_image hf hl) (validate_image hb hl)

theorem value?_fresh (hf : f.keySize = FixedKey.size K) (bucket : Nat) (key : K) :
    value? f (FixedKey.spread (FixedKey.hashCode key)) key (fresh bucket) = none := by
  rw [fresh_eq (K := K) f, value?_image hf bucket (Nat.zero_le _)]
  rfl

theorem isFor_written (hash : K → Int32) (key l : K) (value : Int64) :
    isFor (hash key) key ⟨hash l, FixedKey.version K, FixedKey.write l, value⟩ = decide (l = key) := by
  rw [isFor, FixedKey.matches?_write]
  by_cases h : l = key <;> simp [h]

/-- An entry is that of one key at most. -/
theorem eq_of_isFor {hash hash' : Int32} {key key' : K} {e : PageEntry} (h : isFor hash key e)
    (h' : isFor hash' key' e) : key = key' := by
  rw [isFor, Bool.and_eq_true, LawfulKey.matches?_eq, FixedKey.readsAs] at h h'
  cases hread : FixedKey.read (K := K) e.version e.key with
  | error e =>
      rw [hread] at h
      cases h.2
  | ok found =>
      rw [hread] at h h'
      exact (eq_of_beq h.2).symm.trans (eq_of_beq h'.2)

/-- Storing a value sets it for its key and leaves all other keys, whatever hashes they have. -/
theorem value?_put (hl : page.length = pageSize) (hf : f.keySize = FixedKey.size K)
    (hash : K → Int32) {key : K} {value : Int64} {page' : Bytes}
    (h : put f (hash key) key value page = .ok page') (k : K) :
    value? f (hash k) k page' = if k = key then some value else value? f (hash k) k page := by
  have hkey : (FixedKey.write key).length = f.keySize := (LawfulKey.length_write key).trans hf.symm
  rcases put_cases hl hkey (hash key) value with
    ⟨page1, before, e, after, hput, -, -, -, -, hold, hnew, hbefore, hfor⟩ |
    ⟨habsent, ⟨-, page1, hput, -, -, -, -, hnew⟩ | ⟨-, hput⟩⟩
  · obtain rfl : page1 = page' := Except.ok.inj (hput.symm.trans h)
    rw [value?, value?, hold, hnew, List.find?_append, List.find?_append, List.find?_cons,
      List.find?_cons]
    by_cases hk : k = key
    · subst hk
      have hfor' : isFor (hash k) k { e with value := value } := hfor
      rw [List.find?_eq_none.mpr hbefore, hfor', if_pos rfl]
      rfl
    · have hother : isFor (hash k) k e = false :=
        Bool.eq_false_iff.mpr fun h' => hk (eq_of_isFor h' hfor)
      have hother' : isFor (hash k) k { e with value := value } = false := hother
      rw [hother, hother', if_neg hk]
  · obtain rfl : page1 = page' := Except.ok.inj (hput.symm.trans h)
    rw [value?, hnew, List.find?_append, List.find?_singleton, isFor_written]
    by_cases hk : k = key
    · subst hk
      rw [List.find?_eq_none.mpr habsent, if_pos rfl]
      simp
    · rw [if_neg hk, value?]
      simp [Ne.symm hk]
  · rw [h] at hput
    cases hput

theorem Valid.put_cases (hf : f.keySize = FixedKey.size K) (h : Valid f bucket page) (hash : K → Int32)
    (key : K) (value : Int64) :
    (∃ page', put f (hash key) key value page = .ok page' ∧ Valid f bucket page' ∧
      ∀ k : K, value? f (hash k) k page' =
        if k = key then some value else value? f (hash k) k page) ∨
    put f (hash key) key value page = .error (.pageFull (Page.index page)) := by
  have hkey : (FixedKey.write key).length = f.keySize := (LawfulKey.length_write key).trans hf.symm
  cases hput : put f (hash key) key value page with
  | ok page' =>
      exact .inl ⟨page', rfl, h.of_put hkey hput, value?_put h.length hf hash hput⟩
  | error e =>
      rcases Page.put_cases h.length hkey (hash key) value with
        ⟨page1, -, -, -, hput', -⟩ | ⟨-, ⟨-, page1, hput', -⟩ | ⟨-, hput'⟩⟩
      · rw [hput] at hput'
        cases hput'
      · rw [hput] at hput'
        cases hput'
      · exact .inr (hput.symm.trans hput')

end Keys

end Page

namespace Flush

variable {K : Type} [FixedKey K] [DecidableEq K] [LawfulKey K]

/-- Changes of different keys are applied to a page, or a page of its bucket has no room for one. -/
theorem applyChanges_cases {f : PageForm} (hf : f.keySize = FixedKey.size K) {bucket : Nat}
    {page : Bytes} (h : Page.Valid f bucket page) {changes : Bindings K}
    (hn : (changes.map Prod.fst).Nodup) :
    (∃ page', applyChanges f changes page = .ok page' ∧ Page.Valid f bucket page' ∧ ∀ k : K,
      Page.value? f (FixedKey.spread (FixedKey.hashCode k)) k page' = (changes.lookup k).or
        (Page.value? f (FixedKey.spread (FixedKey.hashCode k)) k page)) ∨
    ∃ index page', applyChanges f changes page = .error (.pageFull index, page') ∧
      index.toInt = bucket := by
  induction changes generalizing page with
  | nil => exact .inl ⟨page, rfl, h, fun _ => rfl⟩
  | cons c changes ih =>
      obtain ⟨key, value⟩ := c
      rw [List.map_cons, List.nodup_cons] at hn
      rw [applyChanges]
      rcases h.put_cases hf (fun k => FixedKey.spread (FixedKey.hashCode k)) key value with ⟨page1, hput, hvalid, hvalue⟩ | hput
      · simp only [hput]
        rcases ih hvalid hn.2 with ⟨page', hgo, hvalid', hvalue'⟩ | hfull
        · refine .inl ⟨page', hgo, hvalid', fun k => ?_⟩
          rw [hvalue', hvalue, List.lookup_cons]
          by_cases hk : k = key
          · subst hk
            have hnone : changes.lookup k = none := by
              rw [List.lookup_eq_none_iff]
              exact fun c hc => bne_iff_ne.mpr fun he => hn.1 (List.mem_map.mpr ⟨c, hc, he.symm⟩)
            simp [hnone]
          · simp [hk, beq_false_of_ne hk]
        · exact .inr hfull
      · simp only [hput]
        exact .inr ⟨_, page, rfl, h.index⟩

theorem of_applyChanges {f : PageForm} (hf : f.keySize = FixedKey.size K) {bucket : Nat}
    {page page' : Bytes} (h : Page.Valid f bucket page) {changes : Bindings K}
    (hn : (changes.map Prod.fst).Nodup) (ha : applyChanges f changes page = .ok page') :
    Page.Valid f bucket page' ∧ ∀ k : K,
      Page.value? f (FixedKey.spread (FixedKey.hashCode k)) k page' = (changes.lookup k).or
        (Page.value? f (FixedKey.spread (FixedKey.hashCode k)) k page) := by
  rcases applyChanges_cases hf h hn with ⟨page1, hgo, hrest⟩ | ⟨index, page1, hgo, -⟩
  · rw [ha] at hgo
    cases hgo
    exact hrest
  · rw [ha] at hgo
    cases hgo

end Flush

end MeteredStorage
