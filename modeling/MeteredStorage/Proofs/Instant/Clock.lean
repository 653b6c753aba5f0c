import MeteredStorage.Proofs.Instant.Trapping

namespace MeteredStorage

theorem Span.number_ofNumber {n : Nat} (h : n / nanosPerSecond < 0x10000000000000000) :
    (ofNumber n).number = n := by
  have hseconds : (ofNumber n).seconds.toNat = n / nanosPerSecond := by
    rw [ofNumber, UInt64.toNat_ofNat', Nat.mod_eq_of_lt h]
  have hnanos : (ofNumber n).nanos.toNat = n % nanosPerSecond := by
    rw [ofNumber, UInt32.toNat_ofNat', Nat.mod_eq_of_lt]
    rw [nanosPerSecond]
    omega
  rw [number, hseconds, hnanos, nanosPerSecond]
  omega

namespace Instant

open Word

variable {reading later : Instant}

theorem ofClock?_of_nonneg (h : 0 ≤ reading.number) : ofClock? reading = some reading := by
  obtain ⟨hseconds, hnanos⟩ := number_eq_iff.mp (rfl : reading.number = reading.number)
  have hwhole : (((reading.number.toNat / nanosPerSecond : Nat)) : Int) = reading.seconds.toInt := by
    rw [Int.natCast_ediv, Int.toNat_of_nonneg h]
    exact hseconds
  have hrest : reading.number.toNat % nanosPerSecond = reading.nanos.toNat := by
    rw [← Int.ofNat_inj, Int.natCast_emod, Int.toNat_of_nonneg h]
    exact hnanos
  have hword : (UInt64.ofNat (reading.number.toNat / nanosPerSecond)).toInt64 = reading.seconds := by
    rw [UInt64.toInt64_ofNat', ← Int64.ofInt_eq_ofNat, hwhole, Int64.ofInt_toInt]
  have hword' : UInt32.ofNat (reading.number.toNat % nanosPerSecond) = reading.nanos := by
    rw [hrest, UInt32.ofNat_toNat]
  rw [ofClock?, sinceEpoch, if_pos h]
  simp only [Span.ofNumber, hword, hword']

/-- The span from a reading to the epoch, in nanoseconds. -/
theorem number_span_before (h : reading.number < 0) :
    ((Span.ofNumber (-reading.number).toNat).number : Int) = -reading.number := by
  have hseconds := (number_eq_iff.mp (rfl : reading.number = reading.number)).1
  have hlo := reading.seconds.le_toInt
  rw [Span.number_ofNumber, Int.toNat_of_nonneg (by omega)]
  rw [nanosPerSecond] at hseconds ⊢
  omega

theorem ofClock?_of_neg (h : reading.number < 0) :
    ofClock? reading = ofNumber? (max reading.number (-maxWord)) := by
  have hspan := number_span_before h
  have hmoved : (ofSeconds 0).number - (UInt64.ofNat
      (min (Span.ofNumber (-reading.number).toNat).number maxWord)).toNat =
        max reading.number (-maxWord) := by
    have hepoch : (ofSeconds 0).number = 0 := rfl
    rw [hepoch, UInt64.toNat_ofNat', maxWord, Nat.mod_eq_of_lt (by omega)]
    omega
  rw [ofClock?, sinceEpoch, if_neg (Int.not_le.mpr h)]
  simp only [minusNanos, hmoved]

/-- Every reading has an instant, with its number or the least one that is reached. -/
theorem exists_ofClock? (reading : Instant) :
    ∃ t, ofClock? reading = some t ∧ t.number = max reading.number (-maxWord) := by
  rcases Int.lt_or_le reading.number 0 with hneg | hnonneg
  · have hrange : InRange (max reading.number (-maxWord)) := by
      rw [InRange, maxWord, nanosPerSecond]
      have hlo := reading.inRange_number.1
      rw [nanosPerSecond] at hlo
      omega
    rw [ofClock?_of_neg hneg]
    exact ofNumber?_of_inRange hrange
  · rw [ofClock?_of_nonneg hnonneg]
    exact ⟨reading, rfl, by rw [maxWord]; omega⟩

def Parts.ofClock? (reading : Instant) : Option Parts :=
  match reading.sinceEpoch with
  | .ok since => some ⟨since.seconds.toInt64, since.nanos⟩
  | .error before => do
    let whole ← unsigned128 (before.seconds.toNat * nanosPerSecond)
    let nanos ← unsigned128 (whole + before.nanos.toNat)
    (⟨0, 0⟩ : Parts).minus? (UInt64.ofNat (min nanos.toNat maxWord))

theorem ofClock?_parts (reading : Instant) : Parts.ofClock? reading = (ofClock? reading).map parts := by
  rw [Parts.ofClock?, ofClock?]
  cases reading.sinceEpoch with
  | ok since => rfl
  | error before =>
      have hseconds := before.seconds.toNat_lt
      have hnanos := before.nanos_lt
      have hnumber : (before.seconds.toNat * nanosPerSecond + before.nanos.toNat : Int).toNat = before.number := by
        rw [Span.number]
        omega
      simp only [unsigned128]
      rw [checked_bind (by rw [nanosPerSecond]; omega) (by rw [nanosPerSecond]; omega),
        checked_bind (by rw [nanosPerSecond]; omega) (by rw [nanosPerSecond] at hnanos ⊢; omega), hnumber]
      exact (ofSeconds 0).minus?_parts _

/--
A reading of the clock at a span after the epoch, or before it, becomes the instant there, without a trap;
of a span before the epoch only the first `maxWord` nanoseconds count. Later readings become no earlier
instants.
-/
theorem ofClock_exact {before : Bool} {d : Span} (h : clockReading? before d = some reading) :
    ∃ t, ofClock? reading = some t ∧ Parts.ofClock? reading = some t.parts ∧
      t.number = (if before then -(min d.number maxWord : Nat) else d.number : Int) ∧
      ∀ later, later.before reading = false → ∃ u, ofClock? later = some u ∧ u.before t = false := by
  have hreading : reading.number = if before then -(d.number : Int) else d.number :=
    ofNumber?_eq_some_iff.mp h
  obtain ⟨t, ht, hnumber⟩ := exists_ofClock? reading
  have hparts : Parts.ofClock? reading = some t.parts := by
    rw [ofClock?_parts, ht]
    rfl
  refine ⟨t, ht, hparts, ?_, fun later hlater => ?_⟩
  · rw [hnumber, hreading]
    cases before <;> simp only [if_true, if_false, Bool.false_eq_true] <;> omega
  · obtain ⟨u, hu, hnumber'⟩ := exists_ofClock? later
    have horder : reading.number ≤ later.number := by
      rw [← Int.not_lt, ← before_iff_number_lt, hlater]
      decide
    refine ⟨u, hu, ?_⟩
    rw [← Bool.not_eq_true, before_iff_number_lt]
    omega

/-- The earliest reading the clock can hold. -/
theorem ofClock_exact_earliest :
    ∃ reading t : Instant, clockReading? true ⟨0x8000000000000000, 0, by decide⟩ = some reading ∧
      ofClock? reading = some t ∧ t.number = -maxWord ∧
      ∀ later, later.before reading = false → ∃ u, ofClock? later = some u ∧ u.before t = false := by
  have hreading : clockReading? true ⟨0x8000000000000000, 0, by decide⟩ =
      some (ofSeconds (-0x8000000000000000)) := by decide +kernel
  obtain ⟨t, ht, -, hnumber, hlater⟩ := ofClock_exact hreading
  exact ⟨_, t, hreading, ht, hnumber.trans (by decide +kernel), hlater⟩

end Instant

end MeteredStorage
