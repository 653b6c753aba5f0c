import MeteredStorage.PagedMap.Basic

namespace MeteredStorage

abbrev Bindings (K : Type) := List (K × Int64)

namespace ChangeSet

variable {K : Type} [DecidableEq K]

def setValues (changes bs : Bindings K) : Bindings K :=
  changes.foldl (fun bs c => setValue c.1 c.2 bs) bs

theorem first_cases (key : K) (bs : Bindings K) :
    (∃ front value rest, bs = front ++ (key, value) :: rest ∧ ∀ c ∈ front, c.1 ≠ key) ∨
      ∀ c ∈ bs, c.1 ≠ key := by
  induction bs with
  | nil => exact .inr (by simp)
  | cons c bs ih =>
      obtain ⟨k, v⟩ := c
      by_cases hk : k = key
      · exact .inl ⟨[], v, bs, by rw [hk]; rfl, by simp⟩
      · rcases ih with ⟨front, value, rest, rfl, hfront⟩ | hnone
        · refine .inl ⟨(k, v) :: front, value, rest, rfl, fun c hc => ?_⟩
          rcases List.mem_cons.mp hc with rfl | hc
          · exact hk
          · exact hfront c hc
        · refine .inr fun c hc => ?_
          rcases List.mem_cons.mp hc with rfl | hc
          · exact hk
          · exact hnone c hc

theorem setValue_of_first {key : K} {front : Bindings K} (h : ∀ c ∈ front, c.1 ≠ key)
    (value old : Int64) (rest : Bindings K) :
    setValue key value (front ++ (key, old) :: rest) = front ++ (key, value) :: rest := by
  induction front with
  | nil => rw [List.nil_append, setValue, if_pos rfl]; rfl
  | cons c front ih =>
      rw [List.cons_append, setValue, if_neg (h c (List.mem_cons_self ..)),
        ih fun d hd => h d (List.mem_cons_of_mem _ hd)]
      rfl

theorem setValue_of_absent {key : K} {bs : Bindings K} (h : ∀ c ∈ bs, c.1 ≠ key) (value : Int64) :
    setValue key value bs = bs ++ [(key, value)] := by
  induction bs with
  | nil => rfl
  | cons c bs ih =>
      rw [setValue, if_neg (h c (List.mem_cons_self ..)),
        ih fun d hd => h d (List.mem_cons_of_mem _ hd)]
      rfl

theorem lookup_setValue (key : K) (value : Int64) (bs : Bindings K) (k : K) :
    (setValue key value bs).lookup k = if k = key then some value else bs.lookup k := by
  induction bs with
  | nil =>
      by_cases hk : k = key
      · simp [setValue, hk]
      · simp [setValue, hk, List.lookup_cons, beq_false_of_ne hk]
  | cons c bs ih =>
      obtain ⟨l, v⟩ := c
      by_cases hl : l = key
      · subst hl
        by_cases hk : k = l
        · simp [setValue, hk]
        · simp [setValue, hk, List.lookup_cons, beq_false_of_ne hk]
      · by_cases hk : k = l
        · subst hk
          simp [setValue, hl]
        · simp [setValue, hl, List.lookup_cons, beq_false_of_ne hk, ih]

theorem map_setValue (key : K) (value : Int64) (bs : Bindings K) :
    (setValue key value bs).map Prod.fst =
      if key ∈ bs.map Prod.fst then bs.map Prod.fst else bs.map Prod.fst ++ [key] := by
  rcases first_cases key bs with ⟨front, old, rest, rfl, hfront⟩ | hnone
  · rw [setValue_of_first hfront, if_pos (by simp)]
    simp
  · rw [setValue_of_absent hnone, if_neg]
    · simp
    · intro hm
      obtain ⟨c, hc, he⟩ := List.mem_map.mp hm
      exact hnone c hc he

theorem nodup_setValue {bs : Bindings K} (h : (bs.map Prod.fst).Nodup) (key : K) (value : Int64) :
    ((setValue key value bs).map Prod.fst).Nodup := by
  rw [map_setValue]
  split
  · exact h
  · rename_i hk
    refine List.nodup_append.mpr ⟨h, List.pairwise_singleton .., fun a ha b hb => ?_⟩
    rw [List.mem_singleton.mp hb]
    exact fun he => hk (he ▸ ha)

theorem nodup_setValues {bs : Bindings K} (h : (bs.map Prod.fst).Nodup) (changes : Bindings K) :
    ((setValues changes bs).map Prod.fst).Nodup := by
  induction changes generalizing bs with
  | nil => exact h
  | cons c changes ih => exact ih (nodup_setValue h c.1 c.2)

theorem mem_keys_setValues {changes bs : Bindings K} {k : K} :
    k ∈ (setValues changes bs).map Prod.fst ↔ k ∈ bs.map Prod.fst ∨ k ∈ changes.map Prod.fst := by
  induction changes generalizing bs with
  | nil => simp [setValues]
  | cons c changes ih =>
      have hstep : setValues (c :: changes) bs = setValues changes (setValue c.1 c.2 bs) := rfl
      rw [hstep, ih, map_setValue, List.map_cons, List.mem_cons]
      split
      · rename_i hold
        constructor
        · exact fun h => h.imp_right .inr
        · rintro (h | rfl | h)
          · exact .inl h
          · exact .inl hold
          · exact .inr h
      · rw [List.mem_append, List.mem_singleton, or_assoc]

theorem length_le_setValue (key : K) (value : Int64) (bs : Bindings K) :
    bs.length ≤ (setValue key value bs).length := by
  have h := congrArg List.length (map_setValue key value bs)
  rw [List.length_map] at h
  rw [h]
  split <;> simp

theorem length_le_setValues (changes bs : Bindings K) : bs.length ≤ (setValues changes bs).length := by
  induction changes generalizing bs with
  | nil => exact Nat.le_refl _
  | cons c changes ih => exact Nat.le_trans (length_le_setValue c.1 c.2 bs) (ih _)

theorem lookup_setValues {changes : Bindings K} (h : (changes.map Prod.fst).Nodup) (bs : Bindings K)
    (k : K) : (setValues changes bs).lookup k = (changes.lookup k).or (bs.lookup k) := by
  induction changes generalizing bs with
  | nil => rfl
  | cons c changes ih =>
      obtain ⟨key, value⟩ := c
      rw [List.map_cons, List.nodup_cons] at h
      have hrest := ih h.2 (setValue key value bs)
      rw [lookup_setValue] at hrest
      have hstep : setValues ((key, value) :: changes) bs =
          setValues changes (setValue key value bs) := rfl
      rw [hstep, hrest]
      by_cases hk : k = key
      · subst hk
        have hnone : changes.lookup k = none := by
          rw [List.lookup_eq_none_iff]
          intro c hc
          rw [bne_iff_ne]
          exact fun he => h.1 (List.mem_map.mpr ⟨c, hc, he.symm⟩)
        simp [hnone]
      · rw [if_neg hk, List.lookup_cons, beq_false_of_ne hk]

theorem lookup_insert (bucket : Nat) (key : K) (value : Int64) (changes : ChangeSet K) (b : Nat) :
    (insert bucket key value changes).lookup b =
      if b = bucket then some (setValue key value ((changes.lookup bucket).getD []))
      else changes.lookup b := by
  induction changes with
  | nil =>
      by_cases hb : b = bucket
      · simp [insert, hb, setValue]
      · simp [insert, hb, List.lookup_cons, beq_false_of_ne hb]
  | cons c changes ih =>
      obtain ⟨d, bs⟩ := c
      by_cases hd : d = bucket
      · subst hd
        by_cases hb : b = d
        · simp [insert, hb]
        · simp [insert, hb, List.lookup_cons, beq_false_of_ne hb]
      · have hne : (bucket == d) = false := beq_false_of_ne (Ne.symm hd)
        by_cases hb : b = d
        · subst hb
          simp [insert, hd]
        · simp [insert, hd, List.lookup_cons, beq_false_of_ne hb, hne, ih]

theorem map_insert (bucket : Nat) (key : K) (value : Int64) (changes : ChangeSet K) :
    (insert bucket key value changes).map Prod.fst =
      if bucket ∈ changes.map Prod.fst then changes.map Prod.fst
      else changes.map Prod.fst ++ [bucket] := by
  induction changes with
  | nil => rfl
  | cons c changes ih =>
      obtain ⟨d, bs⟩ := c
      by_cases hd : d = bucket
      · simp [insert, hd]
      · rw [insert, if_neg hd, List.map_cons, ih]
        split <;> simp_all [Ne.symm hd]

theorem mem_insert {bucket : Nat} {key : K} {value : Int64} {changes : ChangeSet K}
    {c : Nat × Bindings K} (h : c ∈ insert bucket key value changes) :
    c ∈ changes ∨ c = (bucket, [(key, value)]) ∨
      ∃ bs, (bucket, bs) ∈ changes ∧ c = (bucket, setValue key value bs) := by
  induction changes with
  | nil => exact .inr (.inl (List.mem_singleton.mp h))
  | cons d changes ih =>
      obtain ⟨b, bs⟩ := d
      rw [insert] at h
      split at h
      · rename_i hb
        subst hb
        rcases List.mem_cons.mp h with rfl | h
        · exact .inr (.inr ⟨bs, List.mem_cons_self .., rfl⟩)
        · exact .inl (List.mem_cons_of_mem _ h)
      · rcases List.mem_cons.mp h with rfl | h
        · exact .inl (List.mem_cons_self ..)
        · rcases ih h with hc | hc | ⟨bs', hm, rfl⟩
          · exact .inl (List.mem_cons_of_mem _ hc)
          · exact .inr (.inl hc)
          · exact .inr (.inr ⟨bs', List.mem_cons_of_mem _ hm, rfl⟩)

def value? (changes : ChangeSet K) (bucket : Nat) (key : K) : Option Int64 :=
  ((changes.lookup bucket).getD []).lookup key

theorem value?_insert (bucket : Nat) (key : K) (value : Int64) (changes : ChangeSet K) (b : Nat)
    (k : K) : (insert bucket key value changes).value? b k =
      if b = bucket ∧ k = key then some value else changes.value? b k := by
  rw [value?, lookup_insert]
  by_cases hb : b = bucket
  · subst hb
    rw [if_pos rfl, Option.getD_some, lookup_setValue, value?]
    simp only [true_and]
  · rw [if_neg hb, if_neg fun h => hb h.1]
    rfl

/--
The same changes in another order: nothing depends on the order in which a session keeps its buckets
and their keys.
-/
inductive Rearranged : ChangeSet K → ChangeSet K → Prop
  | buckets {changes changes' : ChangeSet K} (h : changes.Perm changes') :
      Rearranged changes changes'
  | keys {front rest : ChangeSet K} {bucket : Nat} {bs bs' : Bindings K} (h : bs.Perm bs') :
      Rearranged (front ++ (bucket, bs) :: rest) (front ++ (bucket, bs') :: rest)

end ChangeSet

section Lookup

variable {α β : Type} [DecidableEq α] {xs ys : List (α × β)}

theorem lookup_eq_some_iff_mem (h : (xs.map Prod.fst).Nodup) (a : α) (b : β) :
    xs.lookup a = some b ↔ (a, b) ∈ xs := by
  induction xs with
  | nil => simp
  | cons x xs ih =>
      obtain ⟨c, d⟩ := x
      rw [List.map_cons, List.nodup_cons] at h
      by_cases hc : a = c
      · subst hc
        have hnot : (a, b) ∉ xs := fun hm => h.1 (List.mem_map.mpr ⟨(a, b), hm, rfl⟩)
        simp [hnot, eq_comm]
      · simp [List.lookup_cons, beq_false_of_ne hc, ih h.2, hc]

theorem lookup_perm (hp : xs.Perm ys) (h : (xs.map Prod.fst).Nodup) (a : α) :
    xs.lookup a = ys.lookup a := by
  refine Option.ext fun b => ?_
  rw [lookup_eq_some_iff_mem h, lookup_eq_some_iff_mem ((hp.map _).nodup h), hp.mem_iff]

end Lookup

def Placed {K : Type} [FixedKey K] (d : Dimensions) (bucket : Nat) (bs : Bindings K) : Prop :=
  ∀ c ∈ bs, d.bucketOf (FixedKey.spread (FixedKey.hashCode c.1)) = bucket

section Placed

variable {K : Type} [FixedKey K] [DecidableEq K] {d : Dimensions} {bucket : Nat}
  {bs changes : Bindings K}

theorem Placed.setValue (h : Placed d bucket bs) {key : K}
    (hk : d.bucketOf (FixedKey.spread (FixedKey.hashCode key)) = bucket) (value : Int64) :
    Placed d bucket (ChangeSet.setValue key value bs) := by
  have hkeys : ∀ k ∈ bs.map Prod.fst ++ [key],
      d.bucketOf (FixedKey.spread (FixedKey.hashCode k)) = bucket := by
    intro k hm
    rcases List.mem_append.mp hm with hm | hm
    · obtain ⟨c, hc, rfl⟩ := List.mem_map.mp hm
      exact h c hc
    · rw [List.mem_singleton.mp hm]
      exact hk
  intro c hc
  have hm : c.1 ∈ (ChangeSet.setValue key value bs).map Prod.fst := List.mem_map_of_mem hc
  rw [ChangeSet.map_setValue] at hm
  split at hm
  · exact hkeys c.1 (List.mem_append_left _ hm)
  · exact hkeys c.1 hm

theorem Placed.setValues (h : Placed d bucket bs) (hc : Placed d bucket changes) :
    Placed d bucket (ChangeSet.setValues changes bs) := by
  induction changes generalizing bs with
  | nil => exact h
  | cons c changes ih =>
      exact ih (h.setValue (hc c (List.mem_cons_self ..)) c.2)
        fun e he => hc e (List.mem_cons_of_mem _ he)

end Placed

/-- The changes of a session: each bucket once, and in it each of its keys at most once. -/
structure Collected {K : Type} [FixedKey K] (d : Dimensions) (changes : ChangeSet K) : Prop where
  buckets : (changes.map Prod.fst).Nodup
  bounded : ∀ c ∈ changes, c.1 < d.buckets
  keys : ∀ c ∈ changes, (c.2.map Prod.fst).Nodup
  placed : ∀ c ∈ changes, Placed d c.1 c.2

namespace Collected

variable {K : Type} [FixedKey K] {d : Dimensions} {changes changes' : ChangeSet K}

theorem nil (d : Dimensions) : Collected d ([] : ChangeSet K) :=
  ⟨List.Pairwise.nil, by simp, by simp, by simp⟩

theorem not_mem {past todo : ChangeSet K} {bucket : Nat} {bs : Bindings K}
    (h : Collected d (past ++ (bucket, bs) :: todo)) : bucket ∉ past.map Prod.fst := by
  have hnodup := h.buckets
  rw [List.map_append, List.map_cons] at hnodup
  exact fun hm => (List.nodup_append.mp hnodup).2.2 bucket hm bucket (List.mem_cons_self ..) rfl

theorem rearranged (h : Collected d changes) (hr : ChangeSet.Rearranged changes changes') :
    Collected d changes' := by
  cases hr with
  | buckets hp =>
      exact ⟨(hp.map _).nodup h.buckets, fun c hc => h.bounded c (hp.mem_iff.mpr hc),
        fun c hc => h.keys c (hp.mem_iff.mpr hc), fun c hc => h.placed c (hp.mem_iff.mpr hc)⟩
  | @keys front rest bucket bs bs' hp =>
      have hcases {c : Nat × Bindings K} (hc : c ∈ front ++ (bucket, bs') :: rest) :
          c ∈ front ++ (bucket, bs) :: rest ∨ c = (bucket, bs') := by
        rcases List.mem_append.mp hc with hc | hc
        · exact .inl (List.mem_append_left _ hc)
        · rcases List.mem_cons.mp hc with hc | hc
          · exact .inr hc
          · exact .inl (List.mem_append_right _ (List.mem_cons_of_mem _ hc))
      have hm : (bucket, bs) ∈ front ++ (bucket, bs) :: rest :=
        List.mem_append_right _ (List.mem_cons_self ..)
      refine ⟨?_, fun c hc => ?_, fun c hc => ?_, fun c hc => ?_⟩
      · have hn := h.buckets
        rw [List.map_append, List.map_cons] at hn ⊢
        exact hn
      · rcases hcases hc with hc | rfl
        · exact h.bounded c hc
        · exact h.bounded (bucket, bs) hm
      · rcases hcases hc with hc | rfl
        · exact h.keys c hc
        · exact (hp.map _).nodup (h.keys _ hm)
      · rcases hcases hc with hc | rfl
        · exact h.placed c hc
        · exact fun e he => h.placed _ hm e (hp.mem_iff.mpr he)

variable [DecidableEq K]

theorem insert (h : Collected d changes) {bucket : Nat} (hb : bucket < d.buckets) {key : K}
    (hk : d.bucketOf (FixedKey.spread (FixedKey.hashCode key)) = bucket) (value : Int64) :
    Collected d (changes.insert bucket key value) where
  buckets := by
    rw [ChangeSet.map_insert]
    split
    · exact h.buckets
    · rename_i hnot
      refine List.nodup_append.mpr ⟨h.buckets, List.pairwise_singleton .., fun a ha b hb => ?_⟩
      rw [List.mem_singleton.mp hb]
      exact fun he => hnot (he ▸ ha)
  bounded c hc := by
    rcases ChangeSet.mem_insert hc with hc | rfl | ⟨bs, -, rfl⟩
    · exact h.bounded c hc
    · exact hb
    · exact hb
  keys c hc := by
    rcases ChangeSet.mem_insert hc with hc | rfl | ⟨bs, hm, rfl⟩
    · exact h.keys c hc
    · exact List.pairwise_singleton ..
    · exact ChangeSet.nodup_setValue (h.keys _ hm) key value
  placed c hc := by
    rcases ChangeSet.mem_insert hc with hc | rfl | ⟨bs, hm, rfl⟩
    · exact h.placed c hc
    · exact fun e he => by rw [List.mem_singleton.mp he]; exact hk
    · exact (h.placed _ hm).setValue hk value

theorem value?_rearranged (h : Collected d changes) (hr : ChangeSet.Rearranged changes changes')
    (bucket : Nat) (key : K) : changes'.value? bucket key = changes.value? bucket key := by
  cases hr with
  | buckets hp => rw [ChangeSet.value?, ChangeSet.value?, lookup_perm hp h.buckets]
  | @keys front rest b bs bs' hp =>
      have hn : (bs.map Prod.fst).Nodup :=
        h.keys (b, bs) (List.mem_append_right _ (List.mem_cons_self ..))
      rw [ChangeSet.value?, ChangeSet.value?, List.lookup_append, List.lookup_append]
      cases front.lookup bucket with
      | some _ => rfl
      | none =>
          by_cases hb : bucket = b
          · subst hb
            simp [lookup_perm hp hn]
          · simp [List.lookup_cons, beq_false_of_ne hb]

end Collected

end MeteredStorage
