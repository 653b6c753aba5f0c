import MeteredStorage.Proofs.Instant.Order
import MeteredStorage.Proofs.Word

namespace MeteredStorage.Instant

open Word

def since? (t u : Instant) : Option Int := do
  let seconds ← signed128 (t.seconds.toInt - u.seconds.toInt)
  let whole ← signed128 (seconds * nanosPerSecond)
  let fraction ← signed128 (t.nanos.toNat - u.nanos.toNat)
  signed128 (whole + fraction)

theorem since?_eq (t u : Instant) : t.since? u = some (t.since u) := by
  have ht := t.nanos_lt
  have hu := u.nanos_lt
  have hlo := t.seconds.le_toInt
  have hhi := t.seconds.toInt_lt
  have hlo' := u.seconds.le_toInt
  have hhi' := u.seconds.toInt_lt
  rw [since?, since]
  simp only [signed128, nanosPerSecond] at ht hu ⊢
  rw [checked_bind (by omega) (by omega), checked_bind (by omega) (by omega),
    checked_bind (by omega) (by omega), checked_eq_some (by omega) (by omega)]

structure Parts where
  seconds : Int64
  nanos : UInt32
  deriving DecidableEq

def parts (t : Instant) : Parts := ⟨t.seconds, t.nanos⟩

namespace Parts

def offset? (p : Parts) (delta : Int) : Option Parts := do
  let whole ← signed128 (p.seconds.toInt * nanosPerSecond)
  let number ← signed128 (whole + p.nanos.toNat)
  let total ← signed128 (number + delta)
  let seconds ← signed64 (total / nanosPerSecond)
  return ⟨Int64.ofInt seconds, UInt32.ofNat (total % nanosPerSecond).toNat⟩

def plus? (p : Parts) (n : UInt64) : Option Parts := p.offset? n.toNat

def minus? (p : Parts) (n : UInt64) : Option Parts := do
  let delta ← signed128 (-(n.toNat : Int))
  p.offset? delta

end Parts

theorem offset?_parts (t : Instant) {delta : Int} (hlo : -(maxWord : Int) ≤ delta) (hhi : delta ≤ maxWord) :
    t.parts.offset? delta = (ofNumber? (t.number + delta)).map parts := by
  have ht := t.nanos_lt
  have hlo' := t.seconds.le_toInt
  have hhi' := t.seconds.toInt_lt
  have htotal : t.parts.offset? delta = do
      let seconds ← signed64 ((t.number + delta) / nanosPerSecond)
      return ⟨Int64.ofInt seconds, UInt32.ofNat ((t.number + delta) % nanosPerSecond).toNat⟩ := by
    rw [Parts.offset?]
    simp only [signed128, nanosPerSecond, maxWord, parts, number] at *
    rw [checked_bind (by omega) (by omega), checked_bind (by omega) (by omega),
      checked_bind (by omega) (by omega)]
  rw [htotal]
  by_cases hrange : InRange (t.number + delta)
  · obtain ⟨v, hv, hnumber⟩ := ofNumber?_of_inRange hrange
    obtain ⟨hseconds, hnanos⟩ := number_eq_iff.mp hnumber
    rw [hv, signed64, checked_bind hrange.1 hrange.2, hseconds, hnanos, Int64.ofInt_toInt,
      Int.toNat_natCast, UInt32.ofNat_toNat]
    rfl
  · rw [ofNumber?_of_not_inRange hrange, signed64, checked_eq_none hrange]
    rfl

theorem plus?_parts (t : Instant) (n : UInt64) : t.parts.plus? n = (t.plusNanos n).map parts := by
  have hlt := n.toNat_lt
  have hword : n.toNat ≤ maxWord := by
    rw [maxWord]
    omega
  exact t.offset?_parts (by omega) (by omega)

theorem minus?_parts (t : Instant) (n : UInt64) : t.parts.minus? n = (t.minusNanos n).map parts := by
  have hlt := n.toNat_lt
  have hword : n.toNat ≤ maxWord := by
    rw [maxWord]
    omega
  rw [Parts.minus?, signed128, checked_bind (by omega) (by omega), t.offset?_parts (by omega) (by omega)]
  rfl

end MeteredStorage.Instant
