import MeteredStorage.Proofs.Admission.Calls
import MeteredStorage.Proofs.Instant.Trapping

namespace MeteredStorage

open Word

namespace Reservoir

def leak? (r : Reservoir) (elapsed : UInt64) : Option Reservoir := do
  let product ← unsigned128 (elapsed.toNat * r.capacity.toNat)
  return r.giveBack (min (product.toNat / nanosPerSecond) maxWord)

theorem leak?_eq (r : Reservoir) (elapsed : UInt64) : r.leak? elapsed = some (r.leak elapsed) := by
  have hlt : elapsed.toNat * r.capacity.toNat < 0x10000000000000000 * 0x10000000000000000 :=
    Nat.mul_lt_mul'' elapsed.toNat_lt r.capacity.toNat_lt
  rw [leak?, unsigned128, checked_bind (by omega) (by omega)]
  rfl

def take? (r : Reservoir) (amount : UInt64) : Option (Except AdmissionError Reservoir) := do
  let free ← unsigned64 (r.capacity.toNat - r.used.toNat)
  if amount.toNat ≤ free then
    let used ← unsigned64 (r.used.toNat + amount.toNat)
    return r.setUsed (UInt64.ofNat used.toNat)
  else
    return .error (.insufficientCapacity amount (UInt64.ofNat free.toNat))

theorem take?_eq (r : Reservoir) (amount : UInt64) : r.take? amount = some (r.take amount) := by
  have hle := r.used_le
  have hlt := r.capacity.toNat_lt
  have hfree := r.toNat_free
  rw [take?, take, unsigned64, checked_bind (by omega) (by omega)]
  by_cases hroom : amount.toNat ≤ r.free.toNat
  · have hsum : UInt64.ofNat (r.used.toNat + amount.toNat) = r.used + amount := by
      rw [UInt64.ofNat_add, UInt64.ofNat_toNat, UInt64.ofNat_toNat]
    have hnat : ((r.used.toNat : Int) + amount.toNat).toNat = r.used.toNat + amount.toNat := by omega
    have hfits : (r.used + amount).toNat ≤ r.capacity.toNat := by
      rw [← hsum, UInt64.toNat_ofNat']
      omega
    rw [if_pos (by omega), dif_pos hroom, unsigned64, checked_bind (by omega) (by omega), hnat, hsum,
      setUsed, dif_pos hfits]
    rfl
  · have hnat : ((r.capacity.toNat : Int) - r.used.toNat).toNat = r.free.toNat := by omega
    rw [if_neg (by omega), dif_neg hroom, hnat, UInt64.ofNat_toNat]
    rfl

end Reservoir

namespace Gate

def elapsed? (g : Gate) (now : Instant) : Option (Except AdmissionError UInt64) :=
  match g.last with
  | none => some (.ok 0)
  | some last =>
    if now.before last then some (.error (.timeWentBack now last))
    else do
      let nanos ← now.since? last
      return .ok (UInt64.ofNat (min nanos.toNat maxWord))

theorem elapsed?_eq (g : Gate) (now : Instant) : g.elapsed? now = some (g.elapsed now) := by
  rw [elapsed?, elapsed]
  cases g.last with
  | none => rfl
  | some last =>
      simp only [Instant.since?_eq]
      split <;> rfl

def request? (g : Gate) (now : Instant) (units : UInt64) :
    Option (Except AdmissionError (Bool × Gate)) := do
  match ← g.elapsed? now with
  | .error reason => return .error reason
  | .ok nanos =>
    let reservoir ← g.reservoir.leak? nanos
    match ← reservoir.take? units with
    | .ok taken => return .ok (true, { g with reservoir := taken, last := some now })
    | .error _ => return .ok (false, { g with reservoir := reservoir, last := some now })

theorem request?_eq (g : Gate) (now : Instant) (units : UInt64) :
    g.request? now units = some (g.request now units) := by
  simp only [request?, elapsed?_eq, request, Option.bind_eq_bind, Option.bind_some]
  cases g.elapsed now with
  | error reason => rfl
  | ok nanos =>
      simp only [Reservoir.leak?_eq, Reservoir.take?_eq, Option.bind_some, bind, Except.bind]
      cases (g.reservoir.leak nanos).take units <;> rfl

/-- `answer` in words that trap; giving back saturates, and a usage that is restored is only compared. -/
def answer? (g : Gate) : GateCall → Option (GateReply × Gate)
  | .request now units => do
    match ← g.request? now units with
    | .ok (admitted, g') => return (.decided admitted, g')
    | .error reason => return (.refused reason, g)
  | call => some (g.answer call)

theorem answer?_eq (g : Gate) (call : GateCall) : g.answer? call = some (g.answer call) := by
  cases call with
  | request now units =>
      simp only [answer?, request?_eq, Option.bind_eq_bind, Option.bind_some, answer]
      cases g.request now units <;> rfl
  | settle amount | restore usage | report | attachMeter => rfl

def trace? (g : Gate) : List GateCall → Option (List (GateReply × Usage))
  | [] => some []
  | call :: calls => do
    let (reply, g') ← g.answer? call
    return (reply, g'.usage) :: (← g'.trace? calls)

theorem trace?_eq (g : Gate) (calls : List GateCall) :
    g.trace? calls = some (GateCall.trace answer usage g calls) := by
  induction calls generalizing g with
  | nil => rfl
  | cons call calls ih =>
      simp only [trace?, answer?_eq, Option.bind_eq_bind, Option.bind_some, ih]
      rfl

end Gate

end MeteredStorage
