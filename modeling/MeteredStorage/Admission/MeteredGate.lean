import MeteredStorage.Admission.Gate
import MeteredStorage.Text.Exposition

namespace MeteredStorage

def gaugeOf (used : UInt64) : Int64 := Int64.ofInt (min used.toNat 0x7FFFFFFFFFFFFFFF : Nat)

structure Meter where
  name : String
  allowed : Nat
  throttled : Nat
  used : Int64

namespace Meter

def attach (g : Gate) : Meter := ⟨g.name, 0, 0, gaugeOf g.reservoir.used⟩

def countDecision (m : Meter) (allowed : Bool) : Meter :=
  if allowed then { m with allowed := m.allowed + 1 } else { m with throttled := m.throttled + 1 }

def metrics (m : Meter) : List Metric :=
  [⟨m.name ++ "_allowed", "Number of decisions that reserved capacity", .counter, m.allowed⟩,
    ⟨m.name ++ "_throttled", "Number of decisions rejected for lack of capacity", .counter, m.throttled⟩,
    ⟨m.name ++ "_used", "Capacity in use after the last operation", .gauge, m.used.toInt⟩]

end Meter

inductive GateEvent
  | throttled (gate : String) (units free : UInt64)
  | usageReset (gate : String) (usage : Usage)

namespace GateEvent

def instantText (t : Instant) : String :=
  s!"Timestamp \x7b epoch_seconds: {t.seconds.toInt}, nanos: {t.nanos.toNat} \x7d"

def text : GateEvent → String
  | .throttled gate units free =>
      s!"TRACE throttled throttle={gate} required_units={units.toNat} free={free.toNat}"
  | .usageReset gate usage =>
      let last := match usage.last with
        | some t => "Some(" ++ instantText t ++ ")"
        | none => "None"
      s!"DEBUG reset usage throttle={gate} used={usage.used.toNat} last_decision_time={last}"

end GateEvent

structure MeteredGate where
  gate : Gate
  meter : Option Meter
  /-- Meters that were replaced, oldest first. -/
  retired : List Meter
  /-- What happened, newest first. -/
  events : List GateEvent

namespace MeteredGate

def create (g : Gate) : MeteredGate := ⟨g, none, [], []⟩

def meters (m : MeteredGate) : List Meter := m.retired ++ m.meter.toList

def samples (m : MeteredGate) : List String := Exposition.samples (m.meters.flatMap Meter.metrics)

def attachMeter (m : MeteredGate) : MeteredGate :=
  { m with meter := some (.attach m.gate), retired := m.meters }

def replaceGate (m : MeteredGate) (g : Gate) : MeteredGate :=
  { m with gate := g, meter := none, retired := m.meters }

def observe (m : MeteredGate) (g : Gate) : MeteredGate :=
  { m with gate := g, meter := m.meter.map ({ · with used := gaugeOf g.reservoir.used }) }

def request (m : MeteredGate) (now : Instant) (units : UInt64) :
    Except AdmissionError (Bool × MeteredGate) := do
  let (allowed, g) ← m.gate.request now units
  let counted := { m with meter := m.meter.map (Meter.countDecision · allowed) }.observe g
  if allowed then return (true, counted)
  else return (false, { counted with events := .throttled g.name units g.reservoir.free :: m.events })

def settle (m : MeteredGate) (amount : UInt64) : MeteredGate := m.observe (m.gate.settle amount)

def restore (m : MeteredGate) (u : Usage) : Except AdmissionError MeteredGate := do
  let g ← m.gate.restore u
  return { m.observe g with events := .usageReset g.name u :: m.events }

end MeteredGate

end MeteredStorage
