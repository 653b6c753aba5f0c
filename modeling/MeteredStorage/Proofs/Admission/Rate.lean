import MeteredStorage.Proofs.Admission.Exactness

namespace MeteredStorage

namespace GateCall

def time? : GateCall → Option Instant
  | .request now _ => some now
  | _ => none

def admitted : GateCall → GateReply → Nat
  | .request _ units, .decided true => units.toNat
  | _, _ => 0

def returned : GateCall → Nat
  | .settle amount => amount.toNat
  | _ => 0

variable {σ τ υ υ' : Type}

def totalAdmitted : List GateCall → List (GateReply × υ) → Nat
  | call :: calls, r :: rs => call.admitted r.1 + totalAdmitted calls rs
  | _, _ => 0

def totalReturned : List GateCall → Nat
  | [] => 0
  | call :: calls => call.returned + totalReturned calls

theorem totalAdmitted_eq_of_related {answer : σ → GateCall → GateReply × σ}
    {answer' : τ → GateCall → GateReply × τ} {view : σ → υ} {view' : τ → υ'} {R : σ → τ → Prop}
    (hstep : ∀ s t call, R s t →
      (answer s call).1 = (answer' t call).1 ∧ R (answer s call).2 (answer' t call).2)
    {s : σ} {t : τ} (h : R s t) (calls : List GateCall) :
    totalAdmitted calls (trace answer view s calls) =
      totalAdmitted calls (trace answer' view' t calls) := by
  induction calls generalizing s t with
  | nil => rfl
  | cons call calls ih =>
      obtain ⟨hreply, hnext⟩ := hstep s t call h
      rw [trace, trace, totalAdmitted, totalAdmitted, hreply, ih hnext]

/-- The time from which a run drains: that of the last decision before it, or else its first. -/
def start? (last : Option Instant) (calls : List GateCall) : Option Instant :=
  last.or (calls.findSome? time?)

end GateCall

namespace ExactGate

open GateCall

theorem sub_mul_eq_add (a b c : Int) (n : Nat) : (a - c) * n = (a - b) * n + (b - c) * n := by
  rw [← Int.add_mul]
  congr 1
  omega

theorem ediv_add_ediv_le (a b c : Int) (n : Nat) :
    (a - b) * n / nanosPerSecond + (b - c) * n / nanosPerSecond ≤ (a - c) * n / nanosPerSecond := by
  rw [sub_mul_eq_add a b c n]
  simp only [nanosPerSecond]
  omega

variable {e : ExactGate} {t₀ t₁ : Instant}

theorem lapse_of_start {now : Instant} (h : e.last.or (some now) = some t₀) :
    e.lapse now = now.number - t₀.number := by
  rw [lapse]
  cases hlast : e.last with
  | none =>
      rw [hlast] at h
      cases h
      exact (Int.sub_self _).symm
  | some last =>
      rw [hlast] at h
      cases h
      rfl

theorem used_sub_drained_le_level (e : ExactGate) (now : Instant) : e.used - e.drained now ≤ e.level now :=
  Int.le_max_right ..

/-- One call: usage grows by what is admitted, but for what is returned and drains until the time reached. -/
theorem used_add_admitted_le_answer {call : GateCall} (hplain : ∀ usage, call ≠ .restore usage)
    (calls : List GateCall) (hstart : start? e.last (call :: calls) = some t₀) :
    ∃ t, start? (e.answer call).2.last calls = some t ∧
      e.used + call.admitted (e.answer call).1 ≤ (e.answer call).2.used + call.returned +
        (t.number - t₀.number) * e.capacity.toNat / nanosPerSecond := by
  cases call with
  | request now units =>
      have hnow : e.last.or (some now) = some t₀ := hstart
      have hlapse := lapse_of_start hnow
      have hlevel := e.used_sub_drained_le_level now
      rw [drained, hlapse] at hlevel
      rcases e.request_cases now units with ⟨hback, h⟩ | ⟨-, -, h⟩ | ⟨-, h⟩ <;> rw [h]
      · obtain ⟨last, hlast⟩ : ∃ last, e.last = some last := by
          cases hlast : e.last with
          | none => simp [lapse, hlast] at hback
          | some last => exact ⟨last, rfl⟩
        rw [hlast] at hnow
        cases hnow
        refine ⟨t₀, by rw [start?, hlast]; rfl, ?_⟩
        simp [admitted, returned]
      · refine ⟨now, rfl, ?_⟩
        simp only [admitted, returned, charge]
        omega
      · refine ⟨now, rfl, ?_⟩
        simp only [admitted, returned, charge]
        omega
  | settle amount =>
      refine ⟨t₀, hstart, ?_⟩
      simp only [answer, admitted, returned, Int.sub_self, Int.zero_mul, Int.zero_ediv]
      omega
  | restore usage => exact absurd rfl (hplain usage)
  | report | attachMeter =>
      refine ⟨t₀, hstart, ?_⟩
      simp [answer, admitted, returned]

/-- A run: the same of all its calls together. -/
theorem used_add_admitted_le_after (calls : List GateCall) (hplain : ∀ usage, .restore usage ∉ calls)
    (hstart : start? e.last calls = some t₀) (hend : (GateCall.after answer e calls).last = some t₁) :
    e.used + totalAdmitted calls (e.trace calls) ≤
      (GateCall.after answer e calls).used + totalReturned calls +
        (t₁.number - t₀.number) * e.capacity.toNat / nanosPerSecond := by
  induction calls generalizing e t₀ with
  | nil =>
      have hlast : e.last = some t₁ := hend
      rw [start?, hlast] at hstart
      cases hstart
      simp [totalAdmitted, totalReturned, GateCall.after]
  | cons call calls ih =>
      have hcall : ∀ usage, call ≠ .restore usage := fun u he => hplain u (he ▸ List.mem_cons_self ..)
      have hcalls : ∀ usage, .restore usage ∉ calls := fun u hu => hplain u (List.mem_cons_of_mem _ hu)
      have hafter : GateCall.after answer e (call :: calls) =
          GateCall.after answer (e.answer call).2 calls := rfl
      have hadmitted : totalAdmitted (call :: calls) (e.trace (call :: calls)) =
          call.admitted (e.answer call).1 + totalAdmitted calls ((e.answer call).2.trace calls) := rfl
      have hreturned : totalReturned (call :: calls) = call.returned + totalReturned calls := rfl
      rw [hafter] at hend ⊢
      obtain ⟨t, hnext, hstep⟩ := used_add_admitted_le_answer hcall calls hstart
      have hrun := ih hcalls hnext hend
      rw [e.capacity_answer call] at hrun
      have hdrained := ediv_add_ediv_le t₁.number t.number t₀.number e.capacity.toNat
      rw [hadmitted, hreturned, Int.natCast_add, Int.natCast_add]
      omega

end ExactGate

namespace MeteredGate

open GateCall ExactGate

/--
From any state, over any calls but those that restore a usage: the units admitted are at most those
free at the start, those returned, and those that drain from the first time `t₀` to the last one `t₁`.
-/
theorem admitted_le (m : MeteredGate) (calls : List GateCall) {t₀ t₁ : Instant}
    (hplain : ∀ usage, .restore usage ∉ calls) (hstart : start? m.gate.last calls = some t₀)
    (hend : (m.after calls).gate.last = some t₁) :
    (totalAdmitted calls (m.trace calls) : Int) ≤
      (m.gate.reservoir.capacity.toNat - m.gate.reservoir.used.toNat) + totalReturned calls +
        (t₁.number - t₀.number) * m.gate.reservoir.capacity.toNat / nanosPerSecond := by
  have hafter : of (m.after calls).gate = GateCall.after ExactGate.answer (of m.gate) calls :=
    after_related exact_related rfl calls
  have htotal : totalAdmitted calls (m.trace calls) = totalAdmitted calls ((of m.gate).trace calls) :=
    totalAdmitted_eq_of_related exact_related rfl calls
  have hlast : (GateCall.after ExactGate.answer (of m.gate) calls).last = some t₁ := hafter ▸ hend
  have hrun := used_add_admitted_le_after (e := of m.gate) calls hplain hstart hlast
  have hbounded := bounded_of (m.after calls).gate
  have hcapacity : (of (m.after calls).gate).capacity = m.gate.reservoir.capacity := by
    rw [hafter]
    exact capacity_after calls
  have hle := hbounded.le
  rw [hcapacity, hafter] at hle
  have hused : (of m.gate).used = m.gate.reservoir.used.toNat := rfl
  have hsame : (of m.gate).capacity = m.gate.reservoir.capacity := rfl
  rw [hused, hsame] at hrun
  rw [htotal]
  omega

/-- Half a second lets five of ten units drain, and everything that the bound allows is admitted. -/
theorem admitted_le_half_second :
    ∃ t₀ t₁ : Instant, ∃ calls : List GateCall,
      let m := create (.create "gate" 10)
      (∀ usage, .restore usage ∉ calls) ∧ start? m.gate.last calls = some t₀ ∧
        (m.after calls).gate.last = some t₁ ∧ totalAdmitted calls (m.trace calls) = 19 ∧
        (totalAdmitted calls (m.trace calls) : Int) ≤
          (m.gate.reservoir.capacity.toNat - m.gate.reservoir.used.toNat) + totalReturned calls +
            (t₁.number - t₀.number) * m.gate.reservoir.capacity.toNat / nanosPerSecond := by
  let half : Instant := ⟨0, 500000000, by decide⟩
  let calls : List GateCall :=
    [.request (.ofSeconds 0) 10, .request (.ofSeconds 0) 1, .settle 4, .request half 9,
      .request (.ofSeconds 0) 5, .report]
  have hplain : ∀ usage, .restore usage ∉ calls := by simp [calls]
  exact ⟨.ofSeconds 0, half, calls, hplain, by decide +kernel, by decide +kernel, by decide +kernel,
    admitted_le _ calls hplain (by decide +kernel) (by decide +kernel)⟩

end MeteredGate

end MeteredStorage
