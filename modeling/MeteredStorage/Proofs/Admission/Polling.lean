import MeteredStorage.Proofs.Admission.Rate

namespace MeteredStorage

namespace GateCall

def requests (polls : List (Instant × UInt64)) : List GateCall := polls.map fun p => .request p.1 p.2

@[simp] theorem requests_cons (poll : Instant × UInt64) (polls : List (Instant × UInt64)) :
    requests (poll :: polls) = .request poll.1 poll.2 :: requests polls := rfl

@[simp] theorem requests_append (polls others : List (Instant × UInt64)) :
    requests (polls ++ others) = requests polls ++ requests others := List.map_append

variable {σ υ : Type} {answer : σ → GateCall → GateReply × σ} {view : σ → υ}

theorem totalAdmitted_append (s : σ) (calls others : List GateCall) :
    totalAdmitted (calls ++ others) (trace answer view s (calls ++ others)) =
      totalAdmitted calls (trace answer view s calls) +
        totalAdmitted others (trace answer view (after answer s calls) others) := by
  induction calls generalizing s with
  | nil => exact (Nat.zero_add _).symm
  | cons call calls ih =>
      rw [List.cons_append, trace, trace, totalAdmitted, totalAdmitted, ih, Nat.add_assoc]
      rfl

end GateCall

namespace ExactGate

open GateCall

variable {e : ExactGate} {now t₀ t₁ : Instant}

/-- Rounding down twice loses less than one unit more than rounding down once. -/
theorem ediv_le_ediv_add_ediv (a b c : Int) (n : Nat) :
    (a - c) * n / nanosPerSecond ≤ (a - b) * n / nanosPerSecond + (b - c) * n / nanosPerSecond + 1 := by
  rw [sub_mul_eq_add a b c n]
  simp only [nanosPerSecond]
  omega

theorem lapse_of_last (h : e.last = some t₀) : e.lapse now = now.number - t₀.number := by
  rw [lapse, h]

/-- What is used at `t₁` after a decision on the way that added nothing, and without it. -/
theorem level_charge_zero (hlast : e.last = some t₀) (hnow : now.number ≤ t₁.number) :
    e.level t₁ ≤ (e.charge now 0).level t₁ ∧ (e.charge now 0).level t₁ ≤ e.level t₁ + 1 := by
  have hforth : 0 ≤ (e.charge now 0).lapse t₁ := by
    rw [lapse_of_last rfl]
    omega
  have hlater := drained_nonneg hforth
  have hlow := ediv_add_ediv_le t₁.number now.number t₀.number e.capacity.toNat
  have hhigh := ediv_le_ediv_add_ediv t₁.number now.number t₀.number e.capacity.toNat
  have hwhole : e.drained t₁ = (t₁.number - t₀.number) * e.capacity.toNat / nanosPerSecond := by
    rw [drained, lapse_of_last hlast]
  have hbefore : e.drained now = (now.number - t₀.number) * e.capacity.toNat / nanosPerSecond := by
    rw [drained, lapse_of_last hlast]
  have hafter : (e.charge now 0).drained t₁ =
      (t₁.number - now.number) * e.capacity.toNat / nanosPerSecond := by
    rw [drained, lapse_of_last rfl]
    rfl
  have hcharge : (e.charge now 0).used = max 0 (e.used - e.drained now) := Int.add_zero _
  rw [level, level, hcharge]
  omega

/-- A decision that is not too early and admits nothing only lets the reservoir drain. -/
theorem request_of_nothing {units : UInt64} (hforth : 0 ≤ e.lapse now)
    (hnone : admitted (.request now units) (e.answer (.request now units)).1 = 0) :
    ∃ admitted, e.answer (.request now units) = (.decided admitted, e.charge now 0) := by
  rcases e.request_cases now units with ⟨hback, -⟩ | ⟨-, -, h⟩ | ⟨-, h⟩
  · omega
  · rw [h] at hnone
    have hunits : units.toNat = 0 := hnone
    rw [hunits] at h
    exact ⟨true, h⟩
  · exact ⟨false, h⟩

theorem level_after_polls (polls : List (Instant × UInt64)) (hlast : e.last = some t₀)
    (hrising : ((t₀ :: polls.map Prod.fst) ++ [t₁]).Pairwise fun t u => t.number ≤ u.number)
    (hnone : totalAdmitted (requests polls) (e.trace (requests polls)) = 0) :
    let polled := GateCall.after answer e (requests polls)
    (∃ t, polled.last = some t ∧ t.number ≤ t₁.number) ∧
      e.level t₁ ≤ polled.level t₁ ∧ polled.level t₁ ≤ e.level t₁ + polls.length := by
  induction polls generalizing e t₀ with
  | nil =>
      have hle : t₀.number ≤ t₁.number := by simpa using hrising
      exact ⟨⟨t₀, hlast, hle⟩, Int.le_refl _, Int.le_of_eq (Int.add_zero _).symm⟩
  | cons poll polls ih =>
      obtain ⟨now, units⟩ := poll
      obtain ⟨hfirst, hrest⟩ := List.pairwise_cons.mp hrising
      have hnow : t₀.number ≤ now.number := hfirst now (by simp)
      have hend : now.number ≤ t₁.number := (List.pairwise_cons.mp hrest).1 t₁ (by simp)
      have hforth : 0 ≤ e.lapse now := by
        rw [lapse_of_last hlast]
        omega
      have htotal : totalAdmitted (requests ((now, units) :: polls))
          (e.trace (requests ((now, units) :: polls))) =
          admitted (.request now units) (e.answer (.request now units)).1 +
            totalAdmitted (requests polls) ((e.answer (.request now units)).2.trace (requests polls)) :=
        rfl
      rw [htotal, Nat.add_eq_zero_iff] at hnone
      obtain ⟨hfirst, hlater⟩ := hnone
      obtain ⟨decided, hanswer⟩ := request_of_nothing hforth hfirst
      rw [hanswer] at hlater
      -- The first decision keeps a unit at most of what drains, the others one each of what it leaves.
      have hafter : GateCall.after answer e (requests ((now, units) :: polls)) =
          GateCall.after answer (e.charge now 0) (requests polls) := by
        rw [requests_cons, GateCall.after, List.foldl_cons, hanswer]
        rfl
      obtain ⟨hat, hlow, hhigh⟩ := ih (e := e.charge now 0) rfl hrest hlater
      obtain ⟨hlow', hhigh'⟩ := level_charge_zero hlast hend
      rw [hafter]
      refine ⟨hat, by omega, ?_⟩
      rw [List.length_cons]
      omega

theorem used_after_last_poll (polls : List (Instant × UInt64)) {last : UInt64} (hlast : e.last = some t₀)
    (hrising : ((t₀ :: polls.map Prod.fst) ++ [t₁]).Pairwise fun t u => t.number ≤ u.number)
    (hnone : let calls := requests (polls ++ [(t₁, last)]); totalAdmitted calls (e.trace calls) = 0) :
    e.level t₁ ≤ (GateCall.after answer e (requests (polls ++ [(t₁, last)]))).used ∧
      (GateCall.after answer e (requests (polls ++ [(t₁, last)]))).used ≤ e.level t₁ + polls.length := by
  rw [requests_append] at hnone ⊢
  simp only [trace, totalAdmitted_append, Nat.add_eq_zero_iff] at hnone
  obtain ⟨hpolls, hend⟩ := hnone
  obtain ⟨⟨t, hat, hle⟩, hlow, hhigh⟩ := level_after_polls polls hlast hrising hpolls
  have hforth : 0 ≤ (GateCall.after answer e (requests polls)).lapse t₁ := by
    rw [lapse_of_last hat]
    omega
  obtain ⟨decided, hanswer⟩ := request_of_nothing hforth hend
  have hused : (GateCall.after answer (GateCall.after answer e (requests polls))
      (requests [(t₁, last)])).used = (GateCall.after answer e (requests polls)).level t₁ :=
    (congrArg (·.2.used) hanswer).trans (Int.add_zero _)
  rw [GateCall.after_append, hused]
  exact ⟨hlow, hhigh⟩

end ExactGate

namespace MeteredGate

open GateCall ExactGate

/--
A gate last used at `t₀`, asked at `t₁` with nothing admitted then: without a decision on the way it has
drained once, rounded down, and each decision on the way that admits nothing can keep one unit of that.
-/
theorem used_after_polls (m : MeteredGate) (polls : List (Instant × UInt64)) {t₀ t₁ : Instant}
    (last last' : UInt64) (hlast : m.gate.last = some t₀)
    (hrising : ((t₀ :: polls.map Prod.fst) ++ [t₁]).Pairwise fun t u => t.number ≤ u.number)
    (hpolled : let calls := requests (polls ++ [(t₁, last)])
      totalAdmitted calls (m.trace calls) = 0)
    (halone : let calls := requests [(t₁, last')]
      totalAdmitted calls (m.trace calls) = 0) :
    let polled := (m.after (requests (polls ++ [(t₁, last)]))).gate.reservoir.used.toNat
    let alone := (m.after (requests [(t₁, last')])).gate.reservoir.used.toNat
    alone ≤ polled ∧ polled ≤ alone + polls.length ∧
      (alone : Int) = max 0 (m.gate.reservoir.used.toNat -
        (t₁.number - t₀.number) * m.gate.reservoir.capacity.toNat / nanosPerSecond) := by
  intro polled alone
  have hexact : ∀ calls, ((m.after calls).gate.reservoir.used.toNat : Int) =
      (GateCall.after ExactGate.answer (of m.gate) calls).used := fun calls =>
    congrArg ExactGate.used (after_related exact_related rfl calls)
  have hpolled' := used_after_last_poll (e := of m.gate) polls hlast hrising
    ((totalAdmitted_eq_of_related exact_related rfl _).symm.trans hpolled)
  have halone' := used_after_last_poll (e := of m.gate) [] hlast (hrising.sublist (by simp))
    ((totalAdmitted_eq_of_related exact_related rfl _).symm.trans halone)
  rw [← hexact] at hpolled' halone'
  rw [List.nil_append, List.length_nil] at halone'
  have hdrained : (of m.gate).level t₁ = max 0 (m.gate.reservoir.used.toNat -
      (t₁.number - t₀.number) * m.gate.reservoir.capacity.toNat / nanosPerSecond) := by
    rw [level, drained, lapse_of_last hlast]
    rfl
  rw [← hdrained]
  omega

/-- A gate of ten units, polled every 99 milliseconds, drains one unit of four in 400 of them. -/
theorem used_after_three_polls :
    ∃ m : MeteredGate, ∃ polls : List (Instant × UInt64), ∃ t₀ t₁ : Instant,
      m.gate.last = some t₀ ∧
        ((t₀ :: polls.map Prod.fst) ++ [t₁]).Pairwise (fun t u => t.number ≤ u.number) ∧
        (let calls := requests (polls ++ [(t₁, 0)]); totalAdmitted calls (m.trace calls) = 0) ∧
        (let calls := requests [(t₁, 0)]; totalAdmitted calls (m.trace calls) = 0) ∧
        polls.length = 3 ∧ (m.after (requests (polls ++ [(t₁, 0)]))).gate.reservoir.used = 9 ∧
        (m.after (requests [(t₁, 0)])).gate.reservoir.used = 6 ∧
        (let polled := (m.after (requests (polls ++ [(t₁, 0)]))).gate.reservoir.used.toNat
        let alone := (m.after (requests [(t₁, 0)])).gate.reservoir.used.toNat
        alone ≤ polled ∧ polled ≤ alone + polls.length ∧
          (alone : Int) = max 0 (m.gate.reservoir.used.toNat -
            (t₁.number - t₀.number) * m.gate.reservoir.capacity.toNat / nanosPerSecond)) := by
  let m := (create (.create "gate" 10)).after (requests [(.ofSeconds 0, 10)])
  let polls : List (Instant × UInt64) :=
    [(⟨0, 99000000, by decide⟩, 0), (⟨0, 198000000, by decide⟩, 10), (⟨0, 297000000, by decide⟩, 0)]
  let t₁ : Instant := ⟨0, 400000000, by decide⟩
  have hlast : m.gate.last = some (.ofSeconds 0) := by decide +kernel
  have hrising : ((.ofSeconds 0 :: polls.map Prod.fst) ++ [t₁]).Pairwise
      fun t u => t.number ≤ u.number := by decide +kernel
  have hpolled : totalAdmitted (requests (polls ++ [(t₁, 0)]))
      (m.trace (requests (polls ++ [(t₁, 0)]))) = 0 := by decide +kernel
  have halone : totalAdmitted (requests [(t₁, 0)]) (m.trace (requests [(t₁, 0)])) = 0 := by
    decide +kernel
  exact ⟨m, polls, .ofSeconds 0, t₁, hlast, hrising, hpolled, halone, rfl, by decide +kernel,
    by decide +kernel, used_after_polls m polls 0 0 hlast hrising hpolled halone⟩

end MeteredGate

end MeteredStorage
