import MeteredStorage.Proofs.Admission.Exactness
import MeteredStorage.Proofs.Task

namespace MeteredStorage

def GateReply.isRefused : GateReply → Bool
  | .refused _ => true
  | _ => false

namespace GateCall

variable {σ υ : Type} {answer : σ → GateCall → GateReply × σ} {view : σ → υ}

def kept (answer : σ → GateCall → GateReply × σ) : σ → List GateCall → List GateCall
  | _, [] => []
  | s, call :: calls =>
    if (answer s call).1.isRefused then kept answer (answer s call).2 calls
    else call :: kept answer (answer s call).2 calls

/-- Without the refused calls the others get the same replies and lead to the same states. -/
theorem trace_kept (hkeeps : ∀ s call, (answer s call).1.isRefused = true → (answer s call).2 = s)
    (s : σ) (calls : List GateCall) :
    trace answer view s (kept answer s calls) =
        (trace answer view s calls).filter (fun r => !r.1.isRefused) ∧
      after answer s (kept answer s calls) = after answer s calls := by
  induction calls generalizing s with
  | nil => exact ⟨rfl, rfl⟩
  | cons call calls ih =>
      obtain ⟨htrace, hafter⟩ := ih (answer s call).2
      cases hrefused : (answer s call).1.isRefused with
      | true =>
          rw [kept, if_pos hrefused, trace, List.filter_cons_of_neg (by simp [hrefused])]
          rw [hkeeps s call hrefused] at htrace hafter ⊢
          refine ⟨htrace, hafter.trans ?_⟩
          rw [after, after, List.foldl_cons, hkeeps s call hrefused]
      | false =>
          rw [kept, if_neg (by simp [hrefused]), trace, trace,
            List.filter_cons_of_pos (by simp [hrefused]), htrace]
          exact ⟨rfl, hafter⟩

def timeAfter (last : Option Instant) : GateCall → GateReply → Option Instant
  | .request now _, .decided _ => some now
  | .restore usage, .done => usage.last
  | _, _ => last

def lastTime (calls : List GateCall) (replies : List GateReply) : Option Instant :=
  (calls.zip replies).foldl (fun last r => timeAfter last r.1 r.2) none

end GateCall

theorem Reservoir.used_of_setUsed {r r' : Reservoir} {used : UInt64} (h : r.setUsed used = .ok r') :
    r'.used = used := by
  rw [setUsed] at h
  split at h <;> cases h
  rfl

/-- Assignments to a gate under observation; an error keeps those before it. -/
abbrev GateTask := Task MeteredGate AdmissionError

namespace MeteredGate

open GateCall ExactGate

def setReservoir (r : Reservoir) : GateTask PUnit :=
  modify fun m => { m with gate := { m.gate with reservoir := r } }

def setLast (last : Option Instant) : GateTask PUnit :=
  modify fun m => { m with gate := { m.gate with last := last } }

def countDecision (admitted : Bool) : GateTask PUnit :=
  modify fun m => { m with meter := m.meter.map (Meter.countDecision · admitted) }

def showUsed (used : UInt64) : GateTask PUnit :=
  modify fun m => { m with meter := m.meter.map ({ · with used := gaugeOf used }) }

def note (event : GateEvent) : GateTask PUnit := modify fun m => { m with events := event :: m.events }

def decideOn (now : Instant) (units : UInt64) : GateTask Bool := do
  let nanos ← Task.ofExcept id ((← get).gate.elapsed now)
  setReservoir ((← get).gate.reservoir.leak nanos)
  let admitted ← match (← get).gate.reservoir.take units with
    | .ok taken => do
      setReservoir taken
      pure true
    | .error _ => pure false
  setLast (some now)
  countDecision admitted
  showUsed (← get).gate.reservoir.used
  unless admitted do
    let gate := (← get).gate
    note (.throttled gate.name units gate.reservoir.free)
  return admitted

def perform : GateCall → GateTask GateReply
  | .request now units => do
    let admitted ← decideOn now units
    return .decided admitted
  | .settle amount => do
    setReservoir ((← get).gate.reservoir.giveBack amount.toNat)
    showUsed (← get).gate.reservoir.used
    return .done
  | .restore usage => do
    setReservoir (← Task.ofExcept id ((← get).gate.reservoir.setUsed usage.used))
    setLast usage.last
    showUsed usage.used
    note (.usageReset (← get).gate.name usage)
    return .done
  | .report => do return .shown (← get).gate.usage
  | .attachMeter => do
    modify attachMeter
    return .done

def carryOut (m : MeteredGate) (call : GateCall) : GateReply × MeteredGate :=
  match perform call m with
  | (.ok reply, m') => (reply, m')
  | (.error reason, m') => (.refused reason, m')

@[simp] theorem setReservoir_run (r : Reservoir) (m : MeteredGate) :
    setReservoir r m = (.ok ⟨⟩, { m with gate := { m.gate with reservoir := r } }) := rfl

@[simp] theorem setLast_run (last : Option Instant) (m : MeteredGate) :
    setLast last m = (.ok ⟨⟩, { m with gate := { m.gate with last := last } }) := rfl

@[simp] theorem countDecision_run (admitted : Bool) (m : MeteredGate) :
    countDecision admitted m =
      (.ok ⟨⟩, { m with meter := m.meter.map (Meter.countDecision · admitted) }) := rfl

@[simp] theorem showUsed_run (used : UInt64) (m : MeteredGate) :
    showUsed used m = (.ok ⟨⟩, { m with meter := m.meter.map ({ · with used := gaugeOf used }) }) := rfl

@[simp] theorem note_run (event : GateEvent) (m : MeteredGate) :
    note event m = (.ok ⟨⟩, { m with events := event :: m.events }) := rfl

/-- The assignments of a decision amount to the decision. -/
theorem decideOn_run (now : Instant) (units : UInt64) (m : MeteredGate) :
    decideOn now units m = match m.request now units with
      | .ok (admitted, m') => (.ok admitted, m')
      | .error reason => (.error reason, m) := by
  cases h : m.gate.elapsed now with
  | error reason =>
      have hrequest : m.request now units = .error reason := by
        rw [request, Gate.request, h]
        rfl
      rw [hrequest]
      simp [decideOn, h]
  | ok nanos =>
      cases htake : (m.gate.reservoir.leak nanos).take units with
      | error reason =>
          have hgate : m.gate.request now units =
              .ok (false, { m.gate with reservoir := m.gate.reservoir.leak nanos, last := some now }) := by
            rw [Gate.request, h]
            simp only [bind, Except.bind, htake]
          rw [request, hgate]
          simp only [decideOn, Task.bind_run, Task.get_run, h, Task.ofExcept_ok, setReservoir_run, htake,
            Task.pure_run, setLast_run, countDecision_run, showUsed_run, note_run, Bool.false_eq_true, if_false]
          rfl
      | ok taken =>
          have hgate : m.gate.request now units =
              .ok (true, { m.gate with reservoir := taken, last := some now }) := by
            rw [Gate.request, h]
            simp only [bind, Except.bind, htake]
          rw [request, hgate]
          simp only [decideOn, Task.bind_run, Task.get_run, h, Task.ofExcept_ok, setReservoir_run, htake,
            Task.pure_run, setLast_run, countDecision_run, showUsed_run, if_true]
          rfl

theorem carryOut_eq (m : MeteredGate) (call : GateCall) : m.carryOut call = m.answer call := by
  cases call with
  | request now units =>
      cases h : m.request now units with
      | error reason => simp [carryOut, answer, perform, decideOn_run, h]
      | ok decision => simp [carryOut, answer, perform, decideOn_run, h]
  | restore usage =>
      cases h : m.gate.reservoir.setUsed usage.used with
      | error reason =>
          have hrestore : m.restore usage = .error reason := by
            rw [restore, Gate.restore, h]
            rfl
          simp [carryOut, answer, perform, h, hrestore]
      | ok reservoir =>
          have hrestore : m.restore usage =
              .ok { m.observe { m.gate with reservoir := reservoir, last := usage.last } with
                events := .usageReset m.gate.name usage :: m.events } := by
            rw [restore, Gate.restore, h]
            rfl
          have hused := Reservoir.used_of_setUsed h
          simp [carryOut, answer, perform, h, hrestore, observe, hused]
  | settle amount | report | attachMeter => rfl

/-- An error leaves nothing half done. -/
theorem carryOut_of_refused (m : MeteredGate) (call : GateCall)
    (h : (m.carryOut call).1.isRefused = true) : (m.carryOut call).2 = m := by
  rw [carryOut_eq] at h ⊢
  cases call with
  | request now units =>
      cases hrequest : m.request now units with
      | error reason => simp only [answer, hrequest]
      | ok decision =>
          simp only [answer, hrequest] at h
          cases h
  | restore usage =>
      cases hrestore : m.restore usage with
      | error reason => simp only [answer, hrestore]
      | ok m' =>
          simp only [answer, hrestore] at h
          cases h
  | settle amount | report | attachMeter => cases h

theorem last_carryOut (m : MeteredGate) (call : GateCall) :
    (m.carryOut call).2.gate.last = timeAfter m.gate.last call (m.carryOut call).1 := by
  obtain ⟨hreply, hgate⟩ := m.exact_related _ call rfl
  have hlast := congrArg ExactGate.last hgate
  rw [carryOut_eq, hreply]
  refine hlast.trans ?_
  cases call with
  | request now units =>
      rcases (of m.gate).request_cases now units with ⟨-, h⟩ | ⟨-, -, h⟩ | ⟨-, h⟩ <;> rw [h] <;> rfl
  | restore usage =>
      rw [ExactGate.answer]
      split <;> rfl
  | settle amount | report | attachMeter => rfl

def replies (m : MeteredGate) (calls : List GateCall) : List GateReply :=
  (GateCall.trace carryOut id m calls).map Prod.fst

theorem last_after (m : MeteredGate) (calls : List GateCall) :
    (GateCall.after carryOut m calls).gate.last =
      (calls.zip (m.replies calls)).foldl (fun last r => timeAfter last r.1 r.2) m.gate.last := by
  induction calls generalizing m with
  | nil => rfl
  | cons call calls ih =>
      refine (ih (m.carryOut call).2).trans ?_
      rw [last_carryOut]
      rfl

theorem capacity_kept (m : MeteredGate) (calls : List GateCall) :
    (GateCall.after carryOut m calls).gate.reservoir.capacity = m.gate.reservoir.capacity := by
  refine GateCall.after_keeps (P := fun m' : MeteredGate =>
    m'.gate.reservoir.capacity = m.gate.reservoir.capacity) (fun m' call h => ?_) rfl calls
  obtain ⟨-, hgate⟩ := m'.exact_related _ call rfl
  rw [carryOut_eq, ← h]
  exact (congrArg ExactGate.capacity hgate).trans ((of m'.gate).capacity_answer call)

theorem request_refused_iff (m : MeteredGate) (now : Instant) (units : UInt64) (reason : AdmissionError) :
    (m.carryOut (.request now units)).1 = .refused reason ↔
      ∃ last, m.gate.last = some last ∧ now.number < last.number ∧ reason = .timeWentBack now last := by
  rw [carryOut_eq, (m.exact_related _ (.request now units) rfl).1]
  cases hlast : m.gate.last with
  | none =>
      have hlapse : (of m.gate).lapse now = 0 := by rw [lapse, of, hlast]
      rcases (of m.gate).request_cases now units with ⟨hback, -⟩ | ⟨-, -, h⟩ | ⟨-, h⟩
      · omega
      all_goals
        rw [h]
        constructor
        · intro hreply
          cases hreply
        · rintro ⟨_, hsame, -⟩
          cases hsame
  | some last =>
      have hlapse : (of m.gate).lapse now = now.number - last.number := by rw [lapse, of, hlast]
      have hgetD : (of m.gate).last.getD now = last := by
        rw [of, hlast]
        rfl
      rcases (of m.gate).request_cases now units with ⟨hback, h⟩ | ⟨hforth, -, h⟩ | ⟨hforth, h⟩
      · rw [h, hgetD, GateReply.refused.injEq]
        constructor
        · rintro rfl
          exact ⟨last, rfl, by omega, rfl⟩
        · rintro ⟨_, hsame, -, rfl⟩
          cases hsame
          rfl
      all_goals
        rw [h]
        constructor
        · intro hreply
          cases hreply
        · rintro ⟨_, hsame, hlt, -⟩
          cases hsame
          omega

theorem restore_refused_iff (m : MeteredGate) (usage : Usage) (reason : AdmissionError) :
    (m.carryOut (.restore usage)).1 = .refused reason ↔
      m.gate.reservoir.capacity.toNat < usage.used.toNat ∧
        reason = .usedExceedsCapacity usage.used m.gate.reservoir.capacity := by
  have hcapacity : (of m.gate).capacity = m.gate.reservoir.capacity := rfl
  rw [carryOut_eq, (m.exact_related _ (.restore usage) rfl).1, ExactGate.answer, hcapacity]
  split
  · rename_i hfits
    constructor
    · intro hreply
      cases hreply
    · intro h
      exact absurd h.1 (Nat.not_lt.mpr hfits)
  · rename_i hfits
    rw [GateReply.refused.injEq]
    exact ⟨fun h => ⟨Nat.not_le.mp hfits, h.symm⟩, fun h => h.2.symm⟩

/--
In every run a request is refused exactly if its time is before that of the last decision, the restoring
of a usage exactly if it exceeds the capacity, and nothing else is. Without the refused calls all others
get the same replies and leave the same states: usage, time, meters and events.
-/
theorem refused_erased (name : String) (capacity : UInt64) (calls : List GateCall) :
    let fresh := create (.create name capacity)
    let m := GateCall.after carryOut fresh calls
    (∀ call, m.carryOut call = m.answer call) ∧
      (∀ now units reason, (m.carryOut (.request now units)).1 = .refused reason ↔
        ∃ last, lastTime calls (fresh.replies calls) = some last ∧ now.number < last.number ∧
          reason = .timeWentBack now last) ∧
      (∀ usage reason, (m.carryOut (.restore usage)).1 = .refused reason ↔
        capacity.toNat < usage.used.toNat ∧ reason = .usedExceedsCapacity usage.used capacity) ∧
      (∀ call reason, (m.carryOut call).1 = .refused reason →
        (∃ now units, call = .request now units) ∨ ∃ usage, call = .restore usage) ∧
      GateCall.trace carryOut id fresh (kept carryOut fresh calls) =
        (GateCall.trace carryOut id fresh calls).filter (fun r => !r.1.isRefused) ∧
      GateCall.after carryOut fresh (kept carryOut fresh calls) = m := by
  intro fresh m
  have hlast : m.gate.last = lastTime calls (fresh.replies calls) := fresh.last_after calls
  have hcapacity : m.gate.reservoir.capacity = capacity := fresh.capacity_kept calls
  refine ⟨m.carryOut_eq, fun now units reason => ?_, fun usage reason => ?_, fun call reason h => ?_,
    trace_kept carryOut_of_refused fresh calls⟩
  · rw [← hlast]
    exact m.request_refused_iff now units reason
  · rw [← hcapacity]
    exact m.restore_refused_iff usage reason
  · rw [m.carryOut_eq] at h
    cases call with
    | request now units => exact .inl ⟨now, units, rfl⟩
    | restore usage => exact .inr ⟨usage, rfl⟩
    | settle amount | report | attachMeter => cases h

end MeteredGate

end MeteredStorage
