import MeteredStorage.Admission.Reservoir
import MeteredStorage.Admission.Usage

namespace MeteredStorage

structure Gate where
  name : String
  reservoir : Reservoir
  last : Option Instant

namespace Gate

def create (name : String) (capacity : UInt64) : Gate := ⟨name, .empty capacity, none⟩

def forGas (capacity : UInt64) : Gate := create "gas" capacity

def usage (g : Gate) : Usage := ⟨g.reservoir.used, g.last⟩

def elapsed (g : Gate) (now : Instant) : Except AdmissionError UInt64 :=
  match g.last with
  | none => .ok 0
  | some last =>
    if now.before last then .error (.timeWentBack now last)
    else .ok (UInt64.ofNat (min (now.since last).toNat maxWord))

/-- Decides on `units` at `now`. The time of the decision counts also if it is a refusal. -/
def request (g : Gate) (now : Instant) (units : UInt64) : Except AdmissionError (Bool × Gate) := do
  let reservoir := g.reservoir.leak (← g.elapsed now)
  match reservoir.take units with
  | .ok taken => .ok (true, { g with reservoir := taken, last := some now })
  | .error _ => .ok (false, { g with reservoir := reservoir, last := some now })

def settle (g : Gate) (amount : UInt64) : Gate :=
  { g with reservoir := g.reservoir.giveBack amount.toNat }

def restore (g : Gate) (u : Usage) : Except AdmissionError Gate := do
  let reservoir ← g.reservoir.setUsed u.used
  return { g with reservoir := reservoir, last := u.last }

/-- The share of the capacity in use at `now`; a time before the last decision leaks nothing. -/
def percentUsed (g : Gate) (now : Instant) : Float :=
  let reservoir := match g.elapsed now with
    | .ok nanos => g.reservoir.leak nanos
    | .error _ => g.reservoir
  if g.reservoir.capacity = 0 then 0.0
  else 100.0 * reservoir.used.toFloat / g.reservoir.capacity.toFloat

end Gate

end MeteredStorage
