import MeteredStorage.Instant.Basic

namespace MeteredStorage.Instant

variable {t u : Instant} {n : Int}

theorem since_eq_number_sub (t u : Instant) : t.since u = t.number - u.number := by
  rw [since, number, number, Int.sub_mul]
  omega

theorem number_eq_iff : t.number = n ↔
    n / nanosPerSecond = t.seconds.toInt ∧ n % nanosPerSecond = t.nanos.toNat := by
  have ht := t.nanos_lt
  rw [nanosPerSecond] at ht
  rw [number, nanosPerSecond, Int.ediv_emod_unique (by decide)]
  omega

theorem number_inj : t.number = u.number ↔ t = u := by
  constructor
  · intro h
    obtain ⟨hseconds, hnanos⟩ := number_eq_iff.mp h
    obtain ⟨hseconds', hnanos'⟩ := number_eq_iff.mp (rfl : u.number = u.number)
    have hs : t.seconds = u.seconds := Int64.toInt_inj.mp (hseconds.symm.trans hseconds')
    have hn : t.nanos = u.nanos := UInt32.toNat_inj.mp (Int.ofNat_inj.mp (hnanos.symm.trans hnanos'))
    cases t
    cases u
    simp only [mk.injEq]
    exact ⟨hs, hn⟩
  · rintro rfl
    rfl

theorem compare_eq_compare_number (t u : Instant) : t.compare u = Ord.compare t.number u.number := by
  have ht := t.nanos_lt
  have hu := u.nanos_lt
  rw [nanosPerSecond] at ht hu
  rcases Int.lt_trichotomy t.seconds.toInt u.seconds.toInt with hlt | heq | hgt
  · have hnumber : t.number < u.number := by
      rw [number, number, nanosPerSecond]
      omega
    rw [compare, Int.compare_eq_lt.mpr hlt, Int.compare_eq_lt.mpr hnumber]
    rfl
  · -- In the same second the nanoseconds decide, on both sides.
    have hnumber : t.number - u.number = (t.nanos.toNat : Int) - u.nanos.toNat := by
      rw [number, number, heq]
      omega
    rw [compare, Int.compare_eq_eq.mpr heq, Ordering.then]
    rcases Nat.lt_trichotomy t.nanos.toNat u.nanos.toNat with hlt' | heq' | hgt'
    · rw [Nat.compare_eq_lt.mpr hlt', Int.compare_eq_lt.mpr (by omega)]
    · rw [Nat.compare_eq_eq.mpr heq', Int.compare_eq_eq.mpr (by omega)]
    · rw [Nat.compare_eq_gt.mpr hgt', Int.compare_eq_gt.mpr (by omega)]
  · have hnumber : u.number < t.number := by
      rw [number, number, nanosPerSecond]
      omega
    rw [compare, Int.compare_eq_gt.mpr hgt, Int.compare_eq_gt.mpr hnumber]
    rfl

theorem before_iff_number_lt (t u : Instant) : t.before u = true ↔ t.number < u.number := by
  rw [before, beq_iff_eq, compare_eq_compare_number, Int.compare_eq_lt]

def InRange (n : Int) : Prop :=
  -0x8000000000000000 ≤ n / nanosPerSecond ∧ n / nanosPerSecond < 0x8000000000000000

theorem inRange_number (t : Instant) : InRange t.number := by
  have hlo := t.seconds.le_toInt
  have hhi := t.seconds.toInt_lt
  rw [InRange, (number_eq_iff.mp rfl).1]
  omega

theorem toNat_narrowed (hlo : 0 ≤ n) (hhi : n < 0x100000000) :
    ((UInt32.ofNat n.toNat).toNat : Int) = n := by
  rw [UInt32.toNat_ofNat', Nat.mod_eq_of_lt (by omega), Int.toNat_of_nonneg hlo]

/-- The remainder always is a valid count of nanoseconds. -/
theorem ofNumber?_of_inRange (h : InRange n) : ∃ t, ofNumber? n = some t ∧ t.number = n := by
  have hlo : 0 ≤ n % nanosPerSecond := Int.emod_nonneg n (by decide)
  have hhi : n % nanosPerSecond < nanosPerSecond := Int.emod_lt_of_pos n (by decide)
  have hnanos := toNat_narrowed hlo (Int.lt_trans hhi (by decide))
  have hvalid : (UInt32.ofNat (n % nanosPerSecond).toNat).toNat < nanosPerSecond := by omega
  have hseconds : (Int64.ofInt (n / nanosPerSecond)).toInt = n / nanosPerSecond :=
    Int64.toInt_ofInt_of_le h.1 h.2
  refine ⟨⟨Int64.ofInt (n / nanosPerSecond), _, hvalid⟩, ?_,
    number_eq_iff.mpr ⟨hseconds.symm, hnanos.symm⟩⟩
  exact (if_pos h).trans (dif_pos hvalid)

theorem ofNumber?_of_not_inRange (h : ¬ InRange n) : ofNumber? n = none := if_neg h

theorem ofNumber?_eq_some_iff : ofNumber? n = some t ↔ t.number = n := by
  constructor
  · intro h
    by_cases hrange : InRange n
    · obtain ⟨v, hv, hnumber⟩ := ofNumber?_of_inRange hrange
      rw [hv, Option.some.injEq] at h
      exact h ▸ hnumber
    · rw [ofNumber?_of_not_inRange hrange] at h
      cases h
  · rintro rfl
    obtain ⟨v, hv, hnumber⟩ := ofNumber?_of_inRange t.inRange_number
    rw [hv, number_inj.mp hnumber]

/-- `r` is the one instant with the number `n`, or nothing if there is none. -/
structure IsNumbered (n : Int) (r : Option Instant) : Prop where
  eq_some_iff : ∀ v, r = some v ↔ v.number = n
  eq_none_iff : r = none ↔ ∀ v : Instant, v.number ≠ n

theorem isNumbered_ofNumber? (n : Int) : IsNumbered n (ofNumber? n) where
  eq_some_iff _ := ofNumber?_eq_some_iff
  eq_none_iff := by
    rw [Option.eq_none_iff_forall_ne_some]
    exact forall_congr' fun _ => not_congr ofNumber?_eq_some_iff

theorem plusNanos_eq_some_iff {k : UInt64} : t.plusNanos k = some u ↔ u.number = t.number + k.toNat :=
  ofNumber?_eq_some_iff

theorem minusNanos_eq_some_iff {k : UInt64} : t.minusNanos k = some u ↔ u.number = t.number - k.toNat :=
  ofNumber?_eq_some_iff

theorem plusNanos_eq_some_comm {k : UInt64} : t.plusNanos k = some u ↔ u.minusNanos k = some t := by
  rw [plusNanos_eq_some_iff, minusNanos_eq_some_iff]
  omega

end MeteredStorage.Instant
