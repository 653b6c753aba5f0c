import MeteredStorage.Admission.MeteredGate

namespace MeteredStorage

inductive GateCall
  | request (now : Instant) (units : UInt64)
  | settle (amount : UInt64)
  | restore (usage : Usage)
  | report
  | attachMeter
  deriving DecidableEq

inductive GateReply
  | decided (admitted : Bool)
  | refused (reason : AdmissionError)
  | shown (usage : Usage)
  | done
  deriving DecidableEq

namespace GateCall

variable {σ τ υ : Type}

/-- The replies to calls made one after another, each with what `view` shows of the state after it. -/
def trace (answer : σ → GateCall → GateReply × σ) (view : σ → υ) :
    σ → List GateCall → List (GateReply × υ)
  | _, [] => []
  | s, call :: calls =>
    ((answer s call).1, view (answer s call).2) :: trace answer view (answer s call).2 calls

def after (answer : σ → GateCall → GateReply × σ) (s : σ) (calls : List GateCall) : σ :=
  calls.foldl (fun s call => (answer s call).2) s

variable {answer : σ → GateCall → GateReply × σ} {answer' : τ → GateCall → GateReply × τ}
  {view : σ → υ} {view' : τ → υ}

theorem after_append (s : σ) (calls others : List GateCall) :
    after answer s (calls ++ others) = after answer (after answer s calls) others := List.foldl_append

theorem after_keeps {P : σ → Prop} (hstep : ∀ s call, P s → P (answer s call).2) {s : σ} (h : P s)
    (calls : List GateCall) : P (after answer s calls) := by
  induction calls generalizing s with
  | nil => exact h
  | cons call calls ih => exact ih (hstep s call h)

theorem after_related {R : σ → τ → Prop}
    (hstep : ∀ s t call, R s t →
      (answer s call).1 = (answer' t call).1 ∧ R (answer s call).2 (answer' t call).2)
    {s : σ} {t : τ} (h : R s t) (calls : List GateCall) :
    R (after answer s calls) (after answer' t calls) := by
  induction calls generalizing s t with
  | nil => exact h
  | cons call calls ih => exact ih (hstep s t call h).2

theorem trace_eq_of_related {R : σ → τ → Prop}
    (hstep : ∀ s t call, R s t →
      (answer s call).1 = (answer' t call).1 ∧ R (answer s call).2 (answer' t call).2)
    (hview : ∀ s t, R s t → view s = view' t) {s : σ} {t : τ} (h : R s t) (calls : List GateCall) :
    trace answer view s calls = trace answer' view' t calls := by
  induction calls generalizing s t with
  | nil => rfl
  | cons call calls ih =>
      obtain ⟨hreply, hnext⟩ := hstep s t call h
      rw [trace, trace, hreply, hview _ _ hnext, ih hnext]

/-- What every call keeps holds in every state seen. -/
theorem forall_trace {P : σ → Prop} (hstep : ∀ s call, P s → P (answer s call).2) {s : σ} (h : P s)
    (calls : List GateCall) : ∀ r ∈ trace answer id s calls, P r.2 := by
  induction calls generalizing s with
  | nil => nofun
  | cons call calls ih =>
      intro r hr
      rw [trace, List.mem_cons] at hr
      rcases hr with rfl | hr
      · exact hstep s call h
      · exact ih (hstep s call h) r hr

end GateCall

namespace Gate

def answer (g : Gate) : GateCall → GateReply × Gate
  | .request now units =>
    match g.request now units with
    | .ok (admitted, g') => (.decided admitted, g')
    | .error reason => (.refused reason, g)
  | .settle amount => (.done, g.settle amount)
  | .restore usage =>
    match g.restore usage with
    | .ok g' => (.done, g')
    | .error reason => (.refused reason, g)
  | .report => (.shown g.usage, g)
  | .attachMeter => (.done, g)

end Gate

namespace MeteredGate

def answer (m : MeteredGate) : GateCall → GateReply × MeteredGate
  | .request now units =>
    match m.request now units with
    | .ok (admitted, m') => (.decided admitted, m')
    | .error reason => (.refused reason, m)
  | .settle amount => (.done, m.settle amount)
  | .restore usage =>
    match m.restore usage with
    | .ok m' => (.done, m')
    | .error reason => (.refused reason, m)
  | .report => (.shown m.gate.usage, m)
  | .attachMeter => (.done, m.attachMeter)

def trace (m : MeteredGate) (calls : List GateCall) : List (GateReply × Usage) :=
  GateCall.trace answer (·.gate.usage) m calls

def after (m : MeteredGate) (calls : List GateCall) : MeteredGate := GateCall.after answer m calls

theorem request_error {m : MeteredGate} {now : Instant} {units : UInt64} {reason : AdmissionError}
    (h : m.gate.request now units = .error reason) : m.request now units = .error reason := by
  rw [request, h]
  rfl

theorem request_ok {m : MeteredGate} {now : Instant} {units : UInt64} {admitted : Bool} {g : Gate}
    (h : m.gate.request now units = .ok (admitted, g)) :
    ∃ m', m.request now units = .ok (admitted, m') ∧ m'.gate = g := by
  rw [request, h]
  cases admitted with
  | true => exact ⟨_, rfl, rfl⟩
  | false => exact ⟨_, rfl, rfl⟩

theorem answer_gate (m : MeteredGate) (call : GateCall) :
    (m.answer call).1 = (m.gate.answer call).1 ∧ (m.answer call).2.gate = (m.gate.answer call).2 := by
  cases call with
  | request now units =>
      cases h : m.gate.request now units with
      | error reason => simp only [answer, Gate.answer, h, request_error h, and_self]
      | ok decision =>
          obtain ⟨m', hm, hgate⟩ := request_ok h
          simp only [answer, Gate.answer, h, hm, hgate, and_self]
  | restore usage =>
      cases h : m.gate.restore usage with
      | error reason => simp only [answer, Gate.answer, restore, h]; exact ⟨rfl, rfl⟩
      | ok g => simp only [answer, Gate.answer, restore, h]; exact ⟨rfl, rfl⟩
  | settle amount | report | attachMeter => exact ⟨rfl, rfl⟩

theorem answer_related (m : MeteredGate) (g : Gate) (call : GateCall) (h : m.gate = g) :
    (m.answer call).1 = (g.answer call).1 ∧ (m.answer call).2.gate = (g.answer call).2 :=
  h ▸ m.answer_gate call

theorem trace_gate (m : MeteredGate) (calls : List GateCall) :
    m.trace calls = GateCall.trace Gate.answer Gate.usage m.gate calls :=
  GateCall.trace_eq_of_related answer_related (fun _ _ h => congrArg Gate.usage h) rfl calls

end MeteredGate

end MeteredStorage
