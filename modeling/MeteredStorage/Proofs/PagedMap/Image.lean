import MeteredStorage.PagedMap.Flush
import MeteredStorage.Proofs.PagedMap.Changes
import MeteredStorage.Proofs.PagedMap.Keys

namespace MeteredStorage

open BigEndian

namespace Bytes

theorem overlay_middle {new old : Bytes} (h : new.length = old.length) (front rest : Bytes) :
    overlay front.length new (front ++ (old ++ rest)) = front ++ (new ++ rest) := by
  have hd : (front ++ (old ++ rest)).drop (front.length + new.length) = rest := by
    rw [h, ← List.append_assoc]
    exact List.drop_left' (by rw [List.length_append])
  have hz : front.length - (front ++ (old ++ rest)).length = 0 := by
    rw [List.length_append]
    omega
  rw [overlay, List.take_left' rfl, hd, hz]
  rfl

theorem overlay_all {new old : Bytes} (h : new.length = old.length) : overlay 0 new old = new := by
  have hmiddle := overlay_middle h [] []
  rwa [List.append_nil, List.nil_append, List.append_nil, List.nil_append] at hmiddle

theorem zeros_add (m n : Nat) : zeros (m + n) = zeros m ++ zeros n := by
  rw [zeros, zeros, zeros, List.replicate_append_replicate]

end Bytes

namespace PageForm

theorem entryOffset_perPage_le (f : PageForm) : f.entryOffset f.perPage ≤ pageSize := by
  have h := Nat.div_mul_le_self (pageSize - headerSize) f.entrySize
  have hle : headerSize ≤ pageSize := by decide
  rw [entryOffset, perPage]
  omega

theorem entryOffset_le {f : PageForm} {n : Nat} (h : n ≤ f.perPage) : f.entryOffset n ≤ pageSize :=
  Nat.le_trans (Nat.add_le_add_left (Nat.mul_le_mul_right _ h) _) f.entryOffset_perPage_le

theorem perPage_le (f : PageForm) : f.perPage ≤ pageSize :=
  Nat.le_trans (Nat.div_le_self ..) (Nat.sub_le ..)

theorem entryOffset_succ (f : PageForm) (n : Nat) :
    f.entryOffset (n + 1) = f.entryOffset n + f.entrySize := by
  rw [entryOffset, entryOffset, Nat.succ_mul, Nat.add_assoc]

end PageForm

namespace Page

variable {K : Type} [FixedKey K]

def entryFor (c : K × Int64) : PageEntry where
  hash := FixedKey.spread (FixedKey.hashCode c.1)
  version := FixedKey.version K
  key := FixedKey.write c.1
  value := c.2

def keyBytes (key : K) : Bytes :=
  ofInt32 (FixedKey.spread (FixedKey.hashCode key)) ++ ofInt32 (FixedKey.version K) ++
    FixedKey.write key

def entryBytes (c : K × Int64) : Bytes := keyBytes c.1 ++ ofInt64 c.2

def image (f : PageForm) (bucket : Nat) (bs : Bindings K) : Bytes :=
  encode 4 bucket ++ (encode 4 bs.length ++ (Bytes.zeros 8 ++
    (bs.flatMap entryBytes ++ Bytes.zeros (pageSize - f.entryOffset bs.length))))

variable {f : PageForm} {bucket : Nat} {bs : Bindings K}

theorem toInt_toInt32_encode {n : Nat} (h : n < 0x80000000) : (toInt32 (encode 4 n)).toInt = n := by
  have hw : toWord32 (encode 4 n) = UInt32.ofNat n := by
    rw [toWord32, decode_encode (Nat.lt_trans h (by decide))]
  have hn : (UInt32.ofNat n).toNat = n := UInt32.toNat_ofNat_of_lt' (Nat.lt_trans h (by decide))
  rw [toInt32, hw, Int32.toInt, UInt32.toBitVec_toInt32, BitVec.toInt_eq_toNat_of_lt]
  · exact congrArg _ hn
  · change 2 * (UInt32.ofNat n).toNat < 2 ^ 32
    omega

theorem toInt_index_image (hb : bucket < 0x80000000) : (index (image f bucket bs)).toInt = bucket := by
  rw [index, image, List.take_left' (length_encode ..), toInt_toInt32_encode hb]

theorem toInt_storedCount_image (hl : bs.length ≤ f.perPage) :
    (storedCount (image f bucket bs)).toInt = bs.length := by
  have hlt : bs.length < 0x80000000 :=
    Nat.lt_of_le_of_lt (Nat.le_trans hl f.perPage_le) (by decide)
  rw [storedCount, image, Bytes.slice, List.drop_left' (length_encode ..),
    List.take_left' (length_encode ..), toInt_toInt32_encode hlt]

theorem count_image (hl : bs.length ≤ f.perPage) : count f (image f bucket bs) = bs.length := by
  rw [count, toInt_storedCount_image hl, Int.toNat_natCast, Nat.min_eq_left hl]

theorem validate_image (hb : bucket < 0x80000000) (hl : bs.length ≤ f.perPage) :
    validate f bucket (image f bucket bs) = .ok () := by
  rw [validate, toInt_index_image hb, if_neg (by simp), toInt_storedCount_image hl, if_neg]
  omega

theorem fresh_eq (f : PageForm) (bucket : Nat) : fresh bucket = image f bucket ([] : Bindings K) := by
  have hz : Bytes.zeros pageSize = [] ++ (Bytes.zeros 4 ++ Bytes.zeros (pageSize - 4)) := by
    rw [List.nil_append, ← Bytes.zeros_add]
    rfl
  have hlength : (encode 4 bucket).length = (Bytes.zeros 4).length := by
    rw [length_encode, Bytes.length_zeros]
  have ho := Bytes.overlay_middle hlength [] (Bytes.zeros (pageSize - 4))
  have hrest : Bytes.zeros (pageSize - 4) = Bytes.zeros 4 ++ (Bytes.zeros 8 ++
      Bytes.zeros (pageSize - f.entryOffset 0)) := by
    rw [PageForm.entryOffset, Nat.zero_mul, ← Bytes.zeros_add, ← Bytes.zeros_add]
    rfl
  rw [fresh, hz]
  refine ho.trans ?_
  have hzero : encode 4 0 = Bytes.zeros 4 := by decide
  rw [List.nil_append, hrest, image, List.length_nil, List.flatMap_nil, List.nil_append, hzero]

variable [DecidableEq K] [LawfulKey K]

section Layout

variable (hf : f.keySize = FixedKey.size K)
include hf

theorem length_keyBytes (key : K) : (keyBytes key).length = f.valueOffset := by
  simp only [keyBytes, List.length_append, length_ofInt32, LawfulKey.length_write, PageForm.valueOffset,
    hf]

theorem length_entryBytes (c : K × Int64) : (entryBytes c).length = f.entrySize := by
  rw [entryBytes, List.length_append, length_keyBytes hf, length_ofInt64, PageForm.entrySize]

theorem length_entries (bs : Bindings K) :
    (bs.flatMap entryBytes).length = bs.length * f.entrySize := by
  induction bs with
  | nil => simp
  | cons c bs ih =>
      rw [List.flatMap_cons, List.length_append, length_entryBytes hf, ih, List.length_cons,
        Nat.succ_mul, Nat.add_comm]

theorem length_image (hl : bs.length ≤ f.perPage) : (image f bucket bs).length = pageSize := by
  have h := PageForm.entryOffset_le hl
  simp only [image, List.length_append, length_encode, Bytes.length_zeros, length_entries hf]
  rw [PageForm.entryOffset, PageForm.headerSize] at *
  omega

theorem entryOf_entryBytes (c : K × Int64) : entryOf f (entryBytes c) = entryFor c := by
  have hw := LawfulKey.length_write c.1
  have h0 : (entryBytes c).take 4 = ofInt32 (FixedKey.spread (FixedKey.hashCode c.1)) := by
    simp [entryBytes, keyBytes]
  have h1 : Bytes.slice 4 4 (entryBytes c) = ofInt32 (FixedKey.version K) := by
    simp [Bytes.slice, entryBytes, keyBytes]
  have h2 : Bytes.slice 8 f.keySize (entryBytes c) = FixedKey.write c.1 := by
    rw [Bytes.slice, entryBytes, keyBytes, List.append_assoc, List.drop_left' (by simp), hf, ← hw,
      List.take_left' rfl]
  have h3 : Bytes.slice f.valueOffset 8 (entryBytes c) = ofInt64 c.2 := by
    rw [Bytes.slice, entryBytes, List.drop_left' (length_keyBytes hf c.1),
      List.take_of_length_le (Nat.le_of_eq (length_ofInt64 _))]
  simp only [entryOf, h0, h1, h2, h3, toInt32_ofInt32, toInt64_ofInt64, entryFor]

theorem entriesOf_append (bs : Bindings K) (rest : Bytes) :
    entriesOf f bs.length (bs.flatMap entryBytes ++ rest) = bs.map entryFor := by
  induction bs with
  | nil => rfl
  | cons c bs ih =>
      have hl := length_entryBytes hf c
      rw [List.flatMap_cons, List.length_cons, entriesOf, List.append_assoc, List.take_left' hl,
        List.drop_left' hl, entryOf_entryBytes hf, ih, List.map_cons]

end Layout

theorem entries_image (hf : f.keySize = FixedKey.size K) (hl : bs.length ≤ f.perPage) :
    entries f (image f bucket bs) = bs.map entryFor := by
  have hd : (image f bucket bs).drop PageForm.headerSize =
      bs.flatMap entryBytes ++ Bytes.zeros (pageSize - f.entryOffset bs.length) := by
    rw [image, ← List.append_assoc, ← List.append_assoc]
    exact List.drop_left' (by simp [PageForm.headerSize, Bytes.length_zeros])
  rw [entries, count_image hl, hd, entriesOf_append hf]

theorem entryFor_inj {c c' : K × Int64} (h : entryFor c = entryFor c') : c = c' := by
  have hread := LawfulKey.read_write c.1 []
  have hkey : FixedKey.write c.1 = FixedKey.write c'.1 := congrArg PageEntry.key h
  rw [hkey, LawfulKey.read_write c'.1 []] at hread
  exact Prod.ext (congrArg Prod.fst (Except.ok.inj hread)).symm (congrArg PageEntry.value h)

/-- A page tells its bucket and its bindings. -/
theorem image_inj (hf : f.keySize = FixedKey.size K) {bucket' : Nat} {bs' : Bindings K}
    (hb : bucket < 0x80000000) (hb' : bucket' < 0x80000000) (hl : bs.length ≤ f.perPage)
    (hl' : bs'.length ≤ f.perPage) (h : image f bucket bs = image f bucket' bs') :
    bucket = bucket' ∧ bs = bs' := by
  refine ⟨?_, ?_⟩
  · have hindex := congrArg (fun page => (index page).toInt) h
    simp only [toInt_index_image hb, toInt_index_image hb'] at hindex
    exact Int.ofNat.inj hindex
  · have hentries := congrArg (entries f) h
    rw [entries_image hf hl, entries_image hf hl'] at hentries
    exact (List.map_inj_right fun _ _ => entryFor_inj).mp hentries

theorem isFor_entryFor (key : K) (c : K × Int64) :
    isFor (FixedKey.spread (FixedKey.hashCode key)) key (entryFor c) = decide (c.1 = key) := by
  rw [isFor, entryFor, FixedKey.matches?_write]
  by_cases hk : c.1 = key <;> simp [hk]

theorem value?_image (hf : f.keySize = FixedKey.size K) (bucket : Nat) (hl : bs.length ≤ f.perPage)
    (key : K) :
    value? f (FixedKey.spread (FixedKey.hashCode key)) key (image f bucket bs) = bs.lookup key := by
  rw [value?, entries_image hf hl]
  clear hl
  induction bs with
  | nil => rfl
  | cons c bs ih =>
      obtain ⟨k, v⟩ := c
      rw [List.map_cons, List.find?_cons, isFor_entryFor, List.lookup_cons]
      by_cases hk : k = key
      · simp [hk, entryFor]
      · have hne : (key == k) = false := beq_false_of_ne (Ne.symm hk)
        simp only [hk, decide_false, hne]
        exact ih

theorem findIdx?_of_first {key : K} {front : Bindings K} (h : ∀ c ∈ front, c.1 ≠ key)
    (value : Int64) (rest : Bindings K) :
    ((front ++ (key, value) :: rest).map entryFor).findIdx?
      (isFor (FixedKey.spread (FixedKey.hashCode key)) key) = some front.length := by
  rw [List.findIdx?_map]
  induction front with
  | nil => simp [List.findIdx?_cons, isFor_entryFor]
  | cons c front ih =>
      have hc := h c (List.mem_cons_self ..)
      rw [List.cons_append, List.findIdx?_cons]
      simp [isFor_entryFor, hc, ih fun d hd => h d (List.mem_cons_of_mem _ hd)]

theorem findIdx?_of_absent {key : K} (h : ∀ c ∈ bs, c.1 ≠ key) :
    (bs.map entryFor).findIdx? (isFor (FixedKey.spread (FixedKey.hashCode key)) key) = none := by
  rw [List.findIdx?_eq_none_iff]
  intro e he
  obtain ⟨c, hc, rfl⟩ := List.mem_map.mp he
  rw [isFor_entryFor, decide_eq_false (h c hc)]

theorem overlay_value (hf : f.keySize = FixedKey.size K) (bucket : Nat) (key : K) (value old : Int64)
    (front rest : Bindings K) :
    Bytes.overlay (f.entryOffset front.length + f.valueOffset) (ofInt64 value)
        (image f bucket (front ++ (key, old) :: rest)) =
      image f bucket (front ++ (key, value) :: rest) := by
  have hsplit (v : Int64) : image f bucket (front ++ (key, v) :: rest) =
      (encode 4 bucket ++ encode 4 (front.length + (rest.length + 1)) ++ Bytes.zeros 8 ++
        front.flatMap entryBytes ++ keyBytes key) ++ (ofInt64 v ++ (rest.flatMap entryBytes ++
          Bytes.zeros (pageSize - f.entryOffset (front.length + (rest.length + 1))))) := by
    simp [image, entryBytes]
  have hlength : (encode 4 bucket ++ encode 4 (front.length + (rest.length + 1)) ++ Bytes.zeros 8 ++
      front.flatMap entryBytes ++ keyBytes key).length =
      f.entryOffset front.length + f.valueOffset := by
    simp [length_entries hf, length_keyBytes hf, Bytes.length_zeros, PageForm.entryOffset,
      PageForm.headerSize]
    omega
  rw [hsplit old, hsplit value, ← hlength]
  exact Bytes.overlay_middle (by rw [length_ofInt64, length_ofInt64]) _ _

theorem addEntry_image (hf : f.keySize = FixedKey.size K) (hl : bs.length < f.perPage) (key : K)
    (value : Int64) :
    addEntry f (FixedKey.spread (FixedKey.hashCode key)) key value (image f bucket bs) =
      image f bucket (bs ++ [(key, value)]) := by
  have hroom : pageSize - f.entryOffset bs.length =
      f.entrySize + (pageSize - f.entryOffset (bs.length + 1)) := by
    have h := PageForm.entryOffset_le (Nat.succ_le_of_lt hl)
    rw [PageForm.entryOffset_succ] at *
    omega
  let front := encode 4 bucket ++ (encode 4 bs.length ++ (Bytes.zeros 8 ++ bs.flatMap entryBytes))
  have hfront : front.length = f.entryOffset bs.length := by
    simp only [front, List.length_append, length_encode, Bytes.length_zeros, length_entries hf,
      PageForm.entryOffset, PageForm.headerSize]
    omega
  have hpage : image f bucket bs = front ++ (Bytes.zeros f.entrySize ++
      Bytes.zeros (pageSize - f.entryOffset (bs.length + 1))) := by
    rw [image, hroom, Bytes.zeros_add]
    simp [front]
  have hnew : (entryBytes (key, value)).length = (Bytes.zeros f.entrySize).length := by
    rw [length_entryBytes hf, Bytes.length_zeros]
  have hentry := Bytes.overlay_middle hnew front
    (Bytes.zeros (pageSize - f.entryOffset (bs.length + 1)))
  have hnumber : (encode 4 (bs.length + 1)).length = (encode 4 bs.length).length := by
    rw [length_encode, length_encode]
  have hcount := Bytes.overlay_middle hnumber (encode 4 bucket) (Bytes.zeros 8 ++
      (bs.flatMap entryBytes ++ (entryBytes (key, value) ++
        Bytes.zeros (pageSize - f.entryOffset (bs.length + 1)))))
  rw [length_encode] at hcount
  rw [addEntry, count_image (Nat.le_of_lt hl), hpage, ← hfront]
  change Bytes.overlay 4 (encode 4 (bs.length + 1))
    (Bytes.overlay front.length (entryBytes (key, value)) _) = _
  rw [hentry]
  simp only [front, List.append_assoc]
  rw [hcount]
  simp [image]

/-- Storing a value gives the page of the changed bindings, unless there is no room for a new one. -/
theorem put_image (hf : f.keySize = FixedKey.size K) (bucket : Nat) (hl : bs.length ≤ f.perPage)
    (key : K) (value : Int64) :
    put f (FixedKey.spread (FixedKey.hashCode key)) key value (image f bucket bs) =
      if (ChangeSet.setValue key value bs).length ≤ f.perPage then
        .ok (image f bucket (ChangeSet.setValue key value bs))
      else .error (.pageFull (index (image f bucket bs))) := by
  rw [put, entries_image hf hl]
  rcases ChangeSet.first_cases key bs with ⟨front, old, rest, rfl, hfront⟩ | hnone
  · have hlength : (front ++ (key, value) :: rest).length ≤ f.perPage := by
      simpa using hl
    rw [findIdx?_of_first hfront, ChangeSet.setValue_of_first hfront, if_pos hlength]
    simp only [overlay_value hf]
  · rw [findIdx?_of_absent hnone, ChangeSet.setValue_of_absent hnone]
    simp only [count_image hl, List.length_append, List.length_singleton]
    by_cases hfull : f.perPage ≤ bs.length
    · rw [if_pos hfull, if_neg (by omega)]
    · rw [if_neg hfull, if_pos (by omega), addEntry_image hf (Nat.lt_of_not_le hfull)]

end Page

namespace Flush

variable {K : Type} [FixedKey K] [DecidableEq K] [LawfulKey K]

/-- Changes are applied to a page, or a page of the same bucket has no room for one of them. -/
theorem applyChanges_image {f : PageForm} (hf : f.keySize = FixedKey.size K) (bucket : Nat)
    (changes : Bindings K) {bs : Bindings K} (hl : bs.length ≤ f.perPage) :
    (applyChanges f changes (Page.image f bucket bs) =
        .ok (Page.image f bucket (ChangeSet.setValues changes bs)) ∧
      (ChangeSet.setValues changes bs).length ≤ f.perPage) ∨
    ∃ e page, applyChanges f changes (Page.image f bucket bs) = .error (e, page) ∧
      f.perPage < (ChangeSet.setValues changes bs).length := by
  induction changes generalizing bs with
  | nil => exact .inl ⟨rfl, hl⟩
  | cons c changes ih =>
      obtain ⟨key, value⟩ := c
      have hput := Page.put_image hf bucket hl key value
      rw [applyChanges]
      by_cases hroom : (ChangeSet.setValue key value bs).length ≤ f.perPage
      · rw [if_pos hroom] at hput
        simp only [hput]
        exact ih hroom
      · rw [if_neg hroom] at hput
        simp only [hput]
        exact .inr ⟨_, _, rfl, Nat.lt_of_lt_of_le (Nat.lt_of_not_le hroom)
          (ChangeSet.length_le_setValues changes _)⟩

end Flush

end MeteredStorage
