import MeteredStorage.Proofs.Instant.Clock

namespace MeteredStorage.Instant

namespace Parts

/-- The parts that instants can be built with. Only the first way of building them checks anything. -/
inductive Built : Parts → Prop
  | checked {seconds : Int64} {nanos : UInt32} :
      (ofParts? seconds nanos).isSome = true → Built ⟨seconds, nanos⟩
  | whole (seconds : Int64) : Built ⟨seconds, 0⟩
  | plus {p q : Parts} {n : UInt64} : Built p → p.plus? n = some q → Built q
  | minus {p q : Parts} {n : UInt64} : Built p → p.minus? n = some q → Built q
  | clock {reading : Instant} {p : Parts} : ofClock? reading = some p → Built p

theorem Built.exists_instant {p : Parts} (h : Built p) : ∃ t : Instant, t.parts = p := by
  induction h with
  | @checked seconds nanos h =>
      rw [ofParts?] at h
      split at h
      · rename_i hlt
        exact ⟨⟨seconds, nanos, hlt⟩, rfl⟩
      · cases h
  | whole seconds => exact ⟨ofSeconds seconds, rfl⟩
  | plus _ h ih =>
      obtain ⟨t, rfl⟩ := ih
      rw [plus?_parts, Option.map_eq_some_iff] at h
      obtain ⟨u, -, hu⟩ := h
      exact ⟨u, hu⟩
  | minus _ h ih =>
      obtain ⟨t, rfl⟩ := ih
      rw [minus?_parts, Option.map_eq_some_iff] at h
      obtain ⟨u, -, hu⟩ := h
      exact ⟨u, hu⟩
  | clock h =>
      rw [ofClock?_parts, Option.map_eq_some_iff] at h
      obtain ⟨u, -, hu⟩ := h
      exact ⟨u, hu⟩

theorem built_parts (t : Instant) : Built t.parts :=
  .checked (Option.isSome_iff_exists.mpr ⟨t, dif_pos t.nanos_lt⟩)

end Parts

/--
The parts that can be built are those of instants, with fewer nanoseconds than a second has. Comparing two
instants compares their numbers, which tell them apart, and their difference never overflows. A
displacement leads to the one instant with the displaced number and has no result, as in words that
trap, exactly if there is none; the opposite displacement leads back.
-/
theorem numbers_exact (t u : Instant) (n : UInt64) :
    (∀ p : Parts, p.Built ↔ ∃ v : Instant, v.parts = p ∧ p.nanos.toNat < nanosPerSecond) ∧
      t.compare u = Ord.compare t.number u.number ∧ (t = u ↔ t.number = u.number) ∧
      t.since? u = some (t.since u) ∧ t.since u = t.number - u.number ∧
      IsNumbered (t.number + n.toNat) (t.plusNanos n) ∧
      t.parts.plus? n = (t.plusNanos n).map parts ∧
      IsNumbered (t.number - n.toNat) (t.minusNanos n) ∧
      t.parts.minus? n = (t.minusNanos n).map parts ∧
      (∀ v, t.plusNanos n = some v → v.minusNanos n = some t) ∧
      ∀ v, t.minusNanos n = some v → v.plusNanos n = some t := by
  refine ⟨fun p => ⟨fun hp => ?_, ?_⟩, t.compare_eq_compare_number u, number_inj.symm, t.since?_eq u,
    t.since_eq_number_sub u, isNumbered_ofNumber? _, t.plus?_parts n, isNumbered_ofNumber? _,
    t.minus?_parts n, fun v => plusNanos_eq_some_comm.mp, fun v => plusNanos_eq_some_comm.mpr⟩
  · obtain ⟨v, rfl⟩ := hp.exists_instant
    exact ⟨v, rfl, v.nanos_lt⟩
  · rintro ⟨v, rfl, -⟩
    exact Parts.built_parts v

end MeteredStorage.Instant
