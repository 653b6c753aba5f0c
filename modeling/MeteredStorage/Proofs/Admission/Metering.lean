import MeteredStorage.Proofs.Admission.Erasing

namespace MeteredStorage

deriving instance DecidableEq for Meter

theorem toInt_gaugeOf (used : UInt64) :
    (gaugeOf used).toInt = min used.toNat 0x7FFFFFFFFFFFFFFF := by
  have hword : ((min used.toNat 0x7FFFFFFFFFFFFFFF : Nat) : Int) < 2 ^ 63 := by omega
  exact Int64.toInt_ofInt_of_le (by omega) hword

/-- The meter has counted the decisions among the replies and shows what the gate has in use. -/
structure Meter.Follows (x : Meter) (g : Gate) (replies : List GateReply) : Prop where
  allowed : x.allowed = replies.count (.decided true)
  throttled : x.throttled = replies.count (.decided false)
  /-- As far as a signed word of 64 bits can show it. -/
  used : x.used.toInt = min g.reservoir.used.toNat 0x7FFFFFFFFFFFFFFF

namespace Meter.Follows

variable {x : Meter} {g g' : Gate} {replies : List GateReply} {reply : GateReply}

theorem attach (g : Gate) : (Meter.attach g).Follows g [] := ⟨rfl, rfl, toInt_gaugeOf _⟩

theorem passed (h : x.Follows g replies) (hreply : ∀ admitted, reply ≠ .decided admitted) :
    x.Follows g (replies ++ [reply]) where
  allowed := by simp [h.allowed, hreply]
  throttled := by simp [h.throttled, hreply]
  used := h.used

theorem decided (h : x.Follows g replies) (admitted : Bool) :
    (x.countDecision admitted).Follows g (replies ++ [.decided admitted]) := by
  cases admitted with
  | true => constructor <;> simp [countDecision, h.allowed, h.throttled, h.used]
  | false => constructor <;> simp [countDecision, h.allowed, h.throttled, h.used]

theorem shown (h : x.Follows g replies) :
    Meter.Follows { x with used := gaugeOf g'.reservoir.used } g' replies :=
  ⟨h.allowed, h.throttled, toInt_gaugeOf _⟩

end Meter.Follows

namespace MeteredGate

/-- The meters before the present one are `retired`, and the present one, if any, follows the gate. -/
structure Metered (retired : List Meter) (present : Bool) (replies : List GateReply) (m : MeteredGate) :
    Prop where
  retired : m.retired = retired
  present : m.meter.isSome = present
  follows : ∀ x ∈ m.meter, x.Follows m.gate replies

variable {m : MeteredGate} {retired : List Meter} {present : Bool} {replies : List GateReply}
  {call : GateCall}

theorem metered_create (g : Gate) : (create g).Metered [] false [] := ⟨rfl, rfl, by simp [create]⟩

theorem metered_attachMeter (m : MeteredGate) : m.attachMeter.Metered m.meters true [] where
  retired := rfl
  present := rfl
  follows x hx := by
    cases hx
    exact .attach m.gate

theorem Metered.observe (h : m.Metered retired present replies) (g : Gate) :
    (m.observe g).Metered retired present replies where
  retired := h.retired
  present := by rw [MeteredGate.observe, Option.isSome_map, h.present]
  follows x hx := by
    obtain ⟨y, hy, rfl⟩ := Option.map_eq_some_iff.mp hx
    exact (h.follows y hy).shown

theorem Metered.decided (h : m.Metered retired present replies) (admitted : Bool) :
    Metered retired present (replies ++ [.decided admitted])
      { m with meter := m.meter.map (Meter.countDecision · admitted) } where
  retired := h.retired
  present := by rw [Option.isSome_map, h.present]
  follows x hx := by
    obtain ⟨y, hy, rfl⟩ := Option.map_eq_some_iff.mp hx
    exact (h.follows y hy).decided admitted

theorem Metered.passed (h : m.Metered retired present replies) {reply : GateReply}
    (hreply : ∀ admitted, reply ≠ .decided admitted) :
    m.Metered retired present (replies ++ [reply]) :=
  ⟨h.retired, h.present, fun x hx => (h.follows x hx).passed hreply⟩

theorem Metered.carryOut (h : m.Metered retired present replies) (hcall : call ≠ .attachMeter) :
    (m.carryOut call).2.Metered retired present (replies ++ [(m.carryOut call).1]) := by
  rw [carryOut_eq]
  cases call with
  | request now units =>
      cases hrequest : m.gate.request now units with
      | error reason =>
          rw [answer, request_error hrequest]
          exact h.passed (by simp)
      | ok decision =>
          obtain ⟨admitted, g⟩ := decision
          have hcounted := (h.decided admitted).observe g
          cases admitted with
          | true =>
              simp only [answer, request, hrequest, bind, Except.bind, pure, Except.pure, if_true]
              exact hcounted
          | false =>
              simp only [answer, request, hrequest, bind, Except.bind, pure, Except.pure,
                Bool.false_eq_true, if_false]
              exact ⟨hcounted.retired, hcounted.present, hcounted.follows⟩
  | settle amount => exact (h.observe _).passed (by simp [answer])
  | restore usage =>
      cases hrestore : m.gate.restore usage with
      | error reason =>
          simp only [answer, restore, hrestore, bind, Except.bind]
          exact h.passed (by simp)
      | ok g =>
          have hdone : (m.observe g).Metered retired present (replies ++ [.done]) :=
            (h.observe g).passed (by simp)
          simp only [answer, restore, hrestore, bind, Except.bind, pure, Except.pure]
          exact ⟨hdone.retired, hdone.present, hdone.follows⟩
  | report => exact h.passed (by simp [answer])
  | attachMeter => exact absurd rfl hcall

theorem Metered.after (h : m.Metered retired present replies) {calls : List GateCall}
    (hcalls : .attachMeter ∉ calls) :
    (GateCall.after MeteredGate.carryOut m calls).Metered retired present (replies ++ m.replies calls) := by
  induction calls generalizing m replies with
  | nil =>
      have hnone : replies ++ m.replies [] = replies := List.append_nil replies
      rw [hnone]
      exact h
  | cons call calls ih =>
      rw [List.mem_cons, not_or] at hcalls
      have hnext := ih (h.carryOut (Ne.symm hcalls.1)) hcalls.2
      rw [List.append_assoc] at hnext
      exact hnext

/--
Whatever has been asked of a new gate, with whatever outcome: the meter that was attached last has counted
the decisions made since and shows the units in use after the last call. The meters that were attached
before are as it found them, and there are none before the first.
-/
theorem meters_follow (name : String) (capacity : UInt64) (before since : List GateCall)
    (hsince : .attachMeter ∉ since) :
    let fresh := create (.create name capacity)
    let former := GateCall.after carryOut fresh before
    let m := GateCall.after carryOut fresh (before ++ .attachMeter :: since)
    (∀ call, m.carryOut call = m.answer call) ∧
      (∃ x, m.meter = some x ∧ x.Follows m.gate (former.attachMeter.replies since)) ∧
      m.retired = former.meters ∧ (.attachMeter ∉ before → former.meters = []) := by
  intro fresh former m
  have hafter : m = GateCall.after carryOut former.attachMeter since := GateCall.after_append ..
  have hm : m.Metered former.meters true (former.attachMeter.replies since) :=
    hafter ▸ former.metered_attachMeter.after hsince
  refine ⟨m.carryOut_eq, ?_, hm.retired, fun hnone => ?_⟩
  · obtain ⟨x, hx⟩ := Option.isSome_iff_exists.mp hm.present
    exact ⟨x, hx, hm.follows x hx⟩
  · have hbare : former.Metered [] false _ := (metered_create (.create name capacity)).after hnone
    have hmeter : former.meter = none := Option.isNone_iff_eq_none.mp (Option.isSome_eq_false_iff.mp hbare.present)
    rw [meters, hbare.retired, hmeter]
    rfl

/--
A meter for gas that replaces one: it has counted one decision of each kind and not the refusals, and it
shows what is left after units were returned. The first one keeps its count and the units of its time.
-/
theorem meters_follow_replaced :
    ∃ before since : List GateCall, .attachMeter ∉ since ∧
      let fresh := create (.forGas 100)
      let former := GateCall.after carryOut fresh before
      let m := GateCall.after carryOut fresh (before ++ .attachMeter :: since)
      former.meters = [⟨"gas", 1, 0, 60⟩] ∧ m.meter = some ⟨"gas", 1, 1, 70⟩ ∧
        (∃ x, m.meter = some x ∧ x.Follows m.gate (former.attachMeter.replies since)) ∧
        m.retired = former.meters := by
  let before : List GateCall := [.attachMeter, .request (.ofSeconds 1) 60]
  let since : List GateCall :=
    [.request (.ofSeconds 1) 60, .request (.ofSeconds 1) 40, .request (.ofSeconds 0) 1, .restore ⟨101, none⟩,
      .settle 30, .report]
  have hsince : .attachMeter ∉ since := by decide
  obtain ⟨-, hpresent, hretired, -⟩ := meters_follow "gas" 100 before since hsince
  exact ⟨before, since, hsince, by decide +kernel, by decide +kernel, hpresent, hretired⟩

end MeteredGate

end MeteredStorage
