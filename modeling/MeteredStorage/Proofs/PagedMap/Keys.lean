import MeteredStorage.PagedMap.Key
import MeteredStorage.Proofs.Bytes

namespace MeteredStorage

open BigEndian

/-- Reading undoes writing, and comparing with bytes means reading them. -/
class LawfulKey (K : Type) [DecidableEq K] [FixedKey K] : Prop where
  length_write : ∀ k : K, (FixedKey.write k).length = FixedKey.size K
  read_write : ∀ (k : K) (rest : Bytes),
    FixedKey.read (FixedKey.version K) (FixedKey.write k ++ rest) = .ok (k, rest)
  matches?_eq : ∀ (k : K) (version : Int32) (bs : Bytes),
    FixedKey.matches? k version bs = FixedKey.readsAs FixedKey.read k version bs

namespace FixedKey

theorem matches?_write {K : Type} [DecidableEq K] [FixedKey K] [LawfulKey K] (k l : K) :
    matches? k (version K) (write l) = decide (l = k) := by
  have h := LawfulKey.read_write l []
  rw [List.append_nil] at h
  rw [LawfulKey.matches?_eq, readsAs, h]
  rfl

theorem readFixed_append {size : Nat} (version : Int32) {bs : Bytes} (h : bs.length = size)
    (rest : Bytes) : readFixed size version version (bs ++ rest) = .ok (bs, rest) := by
  have hs : Bytes.split? size (bs ++ rest) = some (bs, rest) :=
    Bytes.split?_eq_some_iff.mpr ⟨h, rfl⟩
  simp [readFixed, hs]

section Cursor

variable {K : Type} [FixedKey K] {take? : Bytes → Option (K × Bytes)} {k : K} {v : Int32}
  {bs rest : Bytes}

def advanced (bs : Bytes) : Except MapError (K × Bytes) → Except MapError K × Bytes
  | .ok (k, rest) => (.ok k, rest)
  | .error e => (.error e, bs)

def readCursor? (take? : Bytes → Option (K × Bytes)) (v : Int32) (bs : Bytes) :
    Option (Except MapError K × Bytes) :=
  if v ≠ version K then some (.error (.unsupportedVersion v), bs)
  else if bs.length < size K then some (.error (.keyTooLarge (size K)), bs)
  else do
    let (k, rest) ← take? bs
    return (.ok k, rest)

def matchesSlice? (k : K) (v : Int32) (bs : Bytes) : Bool :=
  v == version K && Bytes.peek? 0 (size K) bs == some (write k)

structure Plain (take? : Bytes → Option (K × Bytes)) : Prop where
  length_write : ∀ k : K, (write k).length = size K
  exists_write : ∀ bs : Bytes, bs.length = size K → ∃ k : K, write k = bs
  take?_eq_some_iff : ∀ {bs : Bytes} {k : K} {rest : Bytes},
    take? bs = some (k, rest) ↔ bs = write k ++ rest
  read_eq : ∀ (v : Int32) (bs : Bytes), read v bs =
    if v ≠ version K then .error (.unsupportedVersion v)
    else match take? bs with
      | some r => .ok r
      | none => .error (.keyTooLarge (size K))
  matches?_eq : ∀ (k : K) (v : Int32) (bs : Bytes),
    matches? k v bs = (v == version K && bs.take (size K) == write k)

structure Serializes [DecidableEq K] (take? : Bytes → Option (K × Bytes)) : Prop
    extends LawfulKey K where
  read_error_iff : ∀ (v : Int32) (bs : Bytes),
    (∃ e, read (K := K) v bs = .error e) ↔ v ≠ version K ∨ bs.length < size K
  readCursor?_eq : ∀ (v : Int32) (bs : Bytes),
    readCursor? take? v bs = some (advanced bs (read v bs))
  matchesSlice?_eq : ∀ (k : K) (v : Int32) (bs : Bytes), matchesSlice? k v bs = matches? k v bs

namespace Plain

theorem take?_eq_none_iff (h : Plain take?) : take? bs = none ↔ bs.length < size K := by
  constructor
  · intro hnone
    -- Bytes of the size are those of some key, so there is one to take from more bytes than that.
    refine Nat.lt_of_not_le fun hlong => ?_
    obtain ⟨k, hk⟩ := h.exists_write (bs.take (size K)) (List.length_take_of_le hlong)
    have hsome : take? bs = some (k, bs.drop (size K)) :=
      h.take?_eq_some_iff.mpr (by rw [hk, List.take_append_drop])
    rw [hnone] at hsome
    cases hsome
  · intro hshort
    cases htake : take? bs with
    | none => rfl
    | some r =>
        have hlength := congrArg List.length (h.take?_eq_some_iff.mp htake)
        rw [List.length_append, h.length_write] at hlength
        omega

theorem read_eq_ok_iff (h : Plain take?) :
    read v bs = .ok (k, rest) ↔ v = version K ∧ bs = write k ++ rest := by
  rw [h.read_eq, ← h.take?_eq_some_iff]
  by_cases hv : v = version K
  · cases take? bs <;> simp [hv]
  · simp [hv]

theorem read_eq_error_iff (h : Plain take?) {e : MapError} : read (K := K) v bs = .error e ↔
    v ≠ version K ∧ e = .unsupportedVersion v ∨
      v = version K ∧ bs.length < size K ∧ e = .keyTooLarge (size K) := by
  rw [h.read_eq, ← h.take?_eq_none_iff]
  by_cases hv : v = version K
  · cases take? bs <;> simp [hv, eq_comm]
  · simp [hv, eq_comm]

theorem readCursor?_eq (h : Plain take?) (v : Int32) (bs : Bytes) :
    readCursor? take? v bs = some (advanced bs (read v bs)) := by
  rw [readCursor?, h.read_eq]
  by_cases hv : v = version K
  · cases htake : take? bs with
    | none => simp [hv, h.take?_eq_none_iff.mp htake, advanced]
    | some r =>
        have hlong : ¬ bs.length < size K := by
          rw [← h.take?_eq_none_iff, htake]
          exact Option.some_ne_none r
        simp [hv, hlong, advanced]
  · simp [hv, advanced]

theorem matchesSlice?_eq (h : Plain take?) (k : K) (v : Int32) (bs : Bytes) :
    matchesSlice? k v bs = matches? k v bs := by
  rw [matchesSlice?, h.matches?_eq, Bytes.peek?, Bytes.slice, List.drop_zero, Nat.zero_add]
  by_cases hlong : size K ≤ bs.length
  · simp [hlong]
  · -- What is there is too short to be a key that has been written.
    have hne : bs.take (size K) ≠ write k := fun heq => by
      have hlength := congrArg List.length heq
      rw [h.length_write, List.length_take] at hlength
      omega
    simp [hlong, hne]

variable [DecidableEq K]

theorem lawful (h : Plain take?) : LawfulKey K where
  length_write := h.length_write
  read_write k rest := h.read_eq_ok_iff.mpr ⟨rfl, rfl⟩
  matches?_eq k v bs := by
    apply Bool.eq_iff_iff.mpr
    have hreads : readsAs read k v bs = true ↔ ∃ rest, read (K := K) v bs = .ok (k, rest) := by
      rw [readsAs]
      cases read (K := K) v bs with
      | ok r => simp [Prod.ext_iff]
      | error e => simp
    rw [hreads, h.matches?_eq]
    simp only [h.read_eq_ok_iff, Bool.and_eq_true, beq_iff_eq, exists_and_left]
    refine and_congr_right fun _ => ⟨fun heq => ⟨bs.drop (size K), ?_⟩, ?_⟩
    · rw [← heq, List.take_append_drop]
    · rintro ⟨rest, rfl⟩
      exact List.take_left' (h.length_write k)

theorem serializes (h : Plain take?) : Serializes take? where
  toLawfulKey := h.lawful
  read_error_iff v bs := by
    simp only [h.read_eq_error_iff]
    by_cases hv : v = version K <;> simp [hv]
  readCursor?_eq := h.readCursor?_eq
  matchesSlice?_eq := h.matchesSlice?_eq

end Plain

end Cursor

end FixedKey

open FixedKey

def takeWord64? (bs : Bytes) : Option (UInt64 × Bytes) :=
  (Bytes.split? 8 bs).map fun (first, rest) => (toWord64 first, rest)

def ByteKey.take? (n : Nat) (bs : Bytes) : Option (ByteKey n × Bytes) :=
  if h : (bs.take n).length = n then some (⟨bs.take n, h⟩, bs.drop n) else none

theorem plain_takeWord64? : Plain takeWord64? where
  length_write k := length_ofWord64 k
  exists_write bs h := ⟨toWord64 bs, ofWord64_toWord64 h⟩
  take?_eq_some_iff {bs k rest} := by
    change takeWord64? bs = some (k, rest) ↔ bs = ofWord64 k ++ rest
    simp only [takeWord64?, Option.map_eq_some_iff, Prod.exists, Bytes.split?_eq_some_iff, Prod.mk.injEq]
    constructor
    · rintro ⟨first, rest, ⟨hlength, rfl⟩, rfl, rfl⟩
      rw [ofWord64_toWord64 hlength]
    · rintro rfl
      exact ⟨_, _, ⟨length_ofWord64 k, rfl⟩, toWord64_ofWord64 k, rfl⟩
  read_eq v bs := by
    change (readFixed 8 1 v bs).map _ = if v ≠ 1 then _ else _
    rw [readFixed, takeWord64?]
    by_cases hv : v ≠ 1
    · rw [if_pos hv, if_pos hv]
      rfl
    · rw [if_neg hv, if_neg hv]
      cases Bytes.split? 8 bs <;> rfl
  matches?_eq _ _ _ := rfl

theorem ByteKey.plain_take? (n : Nat) : Plain (take? n) where
  length_write := ByteKey.length_bytes
  exists_write bs h := ⟨⟨bs, h⟩, rfl⟩
  take?_eq_some_iff {bs k rest} := by
    obtain ⟨bytes, hbytes⟩ := k
    change take? n bs = some (⟨bytes, hbytes⟩, rest) ↔ bs = bytes ++ rest
    rw [take?]
    constructor
    · intro h
      split at h
      · cases h
        exact (List.take_append_drop n bs).symm
      · cases h
    · rintro rfl
      have htake : (bytes ++ rest).take n = bytes := List.take_left' hbytes
      have hdrop : (bytes ++ rest).drop n = rest := List.drop_left' hbytes
      simp only [htake, hdrop, hbytes, dif_pos]
  read_eq v bs := by
    change ByteKey.read n v bs = if v ≠ 1 then _ else _
    rw [ByteKey.read, take?]
    by_cases hv : v ≠ 1
    · rw [if_pos hv, if_pos hv]
    · rw [if_neg hv, if_neg hv]
      split <;> rfl
  matches?_eq _ _ _ := rfl

instance : LawfulKey UInt64 := plain_takeWord64?.lawful

instance (n : Nat) : LawfulKey (ByteKey n) := (ByteKey.plain_take? n).lawful

/--
Words of eight bytes and byte strings of every length are written in their size and read back from
what is written, whatever follows. Reading them fails exactly on another version or too few bytes, and
leaves the cursor alone then; comparing the slice in front is comparing the key read from it.
-/
theorem FixedKey.words_and_bytes_serialize :
    (size UInt64 = 8 ∧ Serializes takeWord64?) ∧
      ∀ n, size (ByteKey n) = n ∧ Serializes (ByteKey.take? n) :=
  ⟨⟨rfl, plain_takeWord64?.serializes⟩, fun n => ⟨rfl, (ByteKey.plain_take? n).serializes⟩⟩

instance : LawfulKey HashedId where
  length_write k := by
    change (ofInt32 k.hash ++ ofWord32 k.id).length = 8
    simp
  read_write k rest := by
    have hl : (ofInt32 k.hash ++ ofWord32 k.id).length = 8 := by simp
    have ht : (ofInt32 k.hash ++ ofWord32 k.id).take 4 = ofInt32 k.hash :=
      List.take_left' (length_ofInt32 _)
    have hd : (ofInt32 k.hash ++ ofWord32 k.id).drop 4 = ofWord32 k.id :=
      List.drop_left' (length_ofInt32 _)
    have hread : FixedKey.read (FixedKey.version HashedId) (FixedKey.write k ++ rest) =
        (FixedKey.readFixed 8 3 3 ((ofInt32 k.hash ++ ofWord32 k.id) ++ rest)).map
          fun (k, rest) => ((⟨toInt32 (k.take 4), toWord32 (k.drop 4)⟩ : HashedId), rest) := rfl
    rw [hread, FixedKey.readFixed_append 3 hl]
    simp only [Except.map, ht, hd, toInt32_ofInt32, toWord32_ofWord32]
  matches?_eq _ _ _ := rfl

end MeteredStorage
