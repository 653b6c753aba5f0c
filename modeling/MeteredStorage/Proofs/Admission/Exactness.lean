import MeteredStorage.Proofs.Admission.Trapping
import MeteredStorage.Proofs.Instant.Order

namespace MeteredStorage

namespace Reservoir

theorem toNat_take {r : Reservoir} {amount : UInt64} (h : amount.toNat ≤ r.free.toNat) :
    ∃ taken, r.take amount = .ok taken ∧ taken.capacity = r.capacity ∧
      taken.used.toNat = r.used.toNat + amount.toNat := by
  have hfree := r.toNat_free
  have hle := r.used_le
  have hlt := r.capacity.toNat_lt
  refine ⟨_, dif_pos h, rfl, ?_⟩
  rw [UInt64.toNat_add]
  omega

/-- What drains in any time, both capped, leaves what would be left without a cap. -/
theorem used_leak_capped (r : Reservoir) (nanos : Nat) :
    (r.leak (UInt64.ofNat (min nanos maxWord))).used.toNat =
      r.used.toNat - nanos * r.capacity.toNat / nanosPerSecond := by
  have hle := r.used_le
  have hlt := r.capacity.toNat_lt
  rw [leak, used_giveBack, drained, UInt64.toNat_ofNat']
  by_cases hcap : nanos ≤ maxWord
  · have hword : min nanos maxWord % 2 ^ 64 = nanos := by
      rw [maxWord] at hcap ⊢
      omega
    rw [hword, maxWord]
    omega
  · have hword : min nanos maxWord % 2 ^ 64 = maxWord := by
      rw [maxWord] at hcap ⊢
      omega
    -- From the cap on everything drains, as 2 ^ 64 nanoseconds are more than a second.
    have hall : r.capacity.toNat ≤ maxWord * r.capacity.toNat / nanosPerSecond := by
      rw [maxWord, nanosPerSecond]
      omega
    have hmore : maxWord * r.capacity.toNat / nanosPerSecond ≤
        nanos * r.capacity.toNat / nanosPerSecond :=
      Nat.div_le_div_right (Nat.mul_le_mul_right _ (by omega))
    rw [hword]
    rw [maxWord] at *
    omega

end Reservoir

/-- A gate that counts in unbounded integers. -/
structure ExactGate where
  capacity : UInt64
  used : Int
  last : Option Instant
  deriving DecidableEq

namespace ExactGate

def empty (capacity : UInt64) : ExactGate := ⟨capacity, 0, none⟩

def of (g : Gate) : ExactGate := ⟨g.reservoir.capacity, g.reservoir.used.toNat, g.last⟩

def lapse (e : ExactGate) (now : Instant) : Int :=
  match e.last with
  | none => 0
  | some last => now.number - last.number

def drained (e : ExactGate) (now : Instant) : Int := e.lapse now * e.capacity.toNat / nanosPerSecond

def level (e : ExactGate) (now : Instant) : Int := max 0 (e.used - e.drained now)

def charge (e : ExactGate) (now : Instant) (amount : Int) : ExactGate :=
  { e with used := e.level now + amount, last := some now }

def answer (e : ExactGate) : GateCall → GateReply × ExactGate
  | .request now units =>
    if e.lapse now < 0 then (.refused (.timeWentBack now (e.last.getD now)), e)
    else if units.toNat ≤ e.capacity.toNat - e.level now then (.decided true, e.charge now units.toNat)
    else (.decided false, e.charge now 0)
  | .settle amount => (.done, { e with used := max 0 (e.used - amount.toNat) })
  | .restore usage =>
    if usage.used.toNat ≤ e.capacity.toNat then
      (.done, { e with used := usage.used.toNat, last := usage.last })
    else (.refused (.usedExceedsCapacity usage.used e.capacity), e)
  | .report => (.shown ⟨UInt64.ofNat e.used.toNat, e.last⟩, e)
  | .attachMeter => (.done, e)

def trace (e : ExactGate) (calls : List GateCall) : List (GateReply × ExactGate) :=
  GateCall.trace answer id e calls

structure Bounded (e : ExactGate) : Prop where
  nonneg : 0 ≤ e.used
  le : e.used ≤ e.capacity.toNat

theorem request_cases (e : ExactGate) (now : Instant) (units : UInt64) :
    (e.lapse now < 0 ∧
        e.answer (.request now units) = (.refused (.timeWentBack now (e.last.getD now)), e)) ∨
      (0 ≤ e.lapse now ∧ units.toNat ≤ e.capacity.toNat - e.level now ∧
        e.answer (.request now units) = (.decided true, e.charge now units.toNat)) ∨
      (0 ≤ e.lapse now ∧ e.answer (.request now units) = (.decided false, e.charge now 0)) := by
  by_cases hback : e.lapse now < 0
  · exact .inl ⟨hback, if_pos hback⟩
  · have hforth := Int.not_lt.mp hback
    by_cases hroom : units.toNat ≤ e.capacity.toNat - e.level now
    · exact .inr (.inl ⟨hforth, hroom, by rw [answer, if_neg hback, if_pos hroom]⟩)
    · exact .inr (.inr ⟨hforth, by rw [answer, if_neg hback, if_neg hroom]⟩)

theorem capacity_answer (e : ExactGate) (call : GateCall) : (e.answer call).2.capacity = e.capacity := by
  cases call with
  | request now units =>
      rcases e.request_cases now units with ⟨-, h⟩ | ⟨-, -, h⟩ | ⟨-, h⟩ <;> rw [h] <;> rfl
  | restore usage => rw [answer]; split <;> rfl
  | settle amount | report | attachMeter => rfl

theorem capacity_after {e : ExactGate} (calls : List GateCall) :
    (GateCall.after answer e calls).capacity = e.capacity :=
  GateCall.after_keeps (P := fun d : ExactGate => d.capacity = e.capacity)
    (fun d call h => (d.capacity_answer call).trans h) rfl calls

theorem drained_nonneg {e : ExactGate} {now : Instant} (h : 0 ≤ e.lapse now) : 0 ≤ e.drained now :=
  Int.ediv_nonneg (Int.mul_nonneg h (Int.natCast_nonneg _)) (Int.natCast_nonneg _)

theorem Bounded.answer {e : ExactGate} (h : Bounded e) (call : GateCall) : Bounded (e.answer call).2 := by
  have hle := h.le
  have hnonneg := h.nonneg
  cases call with
  | request now units =>
      rcases e.request_cases now units with ⟨-, h'⟩ | ⟨-, hroom, h'⟩ | ⟨hforth, h'⟩
      · rw [h']
        exact h
      · have hlevel : 0 ≤ e.level now := Int.le_max_left ..
        rw [h']
        constructor <;> simp only [charge] <;> omega
      · have hdrained := drained_nonneg hforth
        rw [h']
        constructor <;> simp only [charge, level] <;> omega
  | settle amount => constructor <;> simp only [ExactGate.answer] <;> omega
  | restore usage =>
      rw [ExactGate.answer]
      split
      · constructor <;> simp only <;> omega
      · exact h
  | report | attachMeter => exact h

theorem bounded_of (g : Gate) : Bounded (of g) where
  nonneg := Int.natCast_nonneg _
  le := Int.ofNat_le.mpr g.reservoir.used_le

theorem Bounded.trace {e : ExactGate} (h : Bounded e) (calls : List GateCall) :
    ∀ r ∈ e.trace calls, Bounded r.2 ∧ r.2.capacity = e.capacity :=
  GateCall.forall_trace (P := fun d => Bounded d ∧ d.capacity = e.capacity)
    (fun d call hd => ⟨hd.1.answer call, (d.capacity_answer call).trans hd.2⟩) ⟨h, rfl⟩ calls

end ExactGate

namespace Gate

open ExactGate

variable {g : Gate} {now : Instant}

theorem elapsed_of_back (h : (of g).lapse now < 0) :
    ∃ last, g.last = some last ∧ g.elapsed now = .error (.timeWentBack now last) := by
  cases hlast : g.last with
  | none =>
      simp only [lapse, of, hlast] at h
      omega
  | some last =>
      simp only [lapse, of, hlast] at h
      have hbefore : now.before last = true := (now.before_iff_number_lt last).mpr (by omega)
      exact ⟨last, rfl, by simp only [elapsed, hlast, hbefore, if_true]⟩

theorem elapsed_of_forth (h : 0 ≤ (of g).lapse now) :
    g.elapsed now = .ok (UInt64.ofNat (min ((of g).lapse now).toNat maxWord)) := by
  cases hlast : g.last with
  | none =>
      simp only [elapsed, hlast, lapse, of]
      rfl
  | some last =>
      simp only [lapse, of, hlast] at h
      have hbefore : ¬ now.before last = true := fun hb => by
        have := (now.before_iff_number_lt last).mp hb
        omega
      simp only [elapsed, hlast, lapse, of, if_neg hbefore, Instant.since_eq_number_sub]

/-- What a decision finds in the reservoir. -/
theorem used_leak_lapse (h : 0 ≤ (of g).lapse now) :
    ((g.reservoir.leak (UInt64.ofNat (min ((of g).lapse now).toNat maxWord))).used.toNat : Int) =
      (of g).level now := by
  have hlapse : ((of g).lapse now * g.reservoir.capacity.toNat / nanosPerSecond : Int) =
      (((of g).lapse now).toNat * g.reservoir.capacity.toNat / nanosPerSecond : Nat) := by
    rw [Int.natCast_ediv, Int.natCast_mul, Int.toNat_of_nonneg h]
  rw [Reservoir.used_leak_capped, level, drained]
  change _ = max 0 ((g.reservoir.used.toNat : Int) -
    (of g).lapse now * g.reservoir.capacity.toNat / nanosPerSecond)
  rw [hlapse]
  omega

/-- Decisions are those of the exact gate. -/
theorem request_exact (g : Gate) (now : Instant) (units : UInt64) :
    (g.answer (.request now units)).1 = ((of g).answer (.request now units)).1 ∧
      of (g.answer (.request now units)).2 = ((of g).answer (.request now units)).2 := by
  by_cases hback : (of g).lapse now < 0
  · obtain ⟨last, hlast, helapsed⟩ := elapsed_of_back hback
    have hgetD : (of g).last.getD now = last := by rw [of, hlast]; rfl
    simp only [Gate.answer, request, helapsed, ExactGate.answer, if_pos hback, hgetD]
    exact ⟨rfl, rfl⟩
  · have helapsed := elapsed_of_forth (Int.not_lt.mp hback)
    have hlevel := used_leak_lapse (Int.not_lt.mp hback)
    simp only [Gate.answer, request, helapsed, ExactGate.answer, if_neg hback, bind, Except.bind]
    generalize hr : g.reservoir.leak (UInt64.ofNat (min ((of g).lapse now).toNat maxWord)) = r at hlevel
    have hcapacity : r.capacity = g.reservoir.capacity := hr ▸ rfl
    have hcapacity' : (of g).capacity = g.reservoir.capacity := rfl
    have hfree := r.toNat_free
    have hle := r.used_le
    by_cases hroom : units.toNat ≤ r.free.toNat
    · obtain ⟨taken, htake, hcap, hused⟩ := Reservoir.toNat_take hroom
      have hroom' : (units.toNat : Int) ≤ (of g).capacity.toNat - (of g).level now := by
        rw [hcapacity', ← hcapacity]
        omega
      rw [htake, if_pos hroom']
      refine ⟨rfl, ?_⟩
      simp only [of, charge, hcap, hcapacity, hused] at hlevel ⊢
      rw [← hlevel, Int.natCast_add]
    · have hroom' : ¬ (units.toNat : Int) ≤ (of g).capacity.toNat - (of g).level now := by
        rw [hcapacity', ← hcapacity]
        omega
      rw [Reservoir.take, dif_neg hroom, if_neg hroom']
      refine ⟨rfl, ?_⟩
      simp only [of, charge, hcapacity] at hlevel ⊢
      rw [← hlevel, Int.add_zero]

theorem restore_ok {u : Usage} (h : u.used.toNat ≤ g.reservoir.capacity.toNat) :
    g.restore u =
      .ok { g with reservoir := { g.reservoir with used := u.used, used_le := h }, last := u.last } := by
  rw [restore, Reservoir.setUsed, dif_pos h]
  rfl

theorem restore_error {u : Usage} (h : ¬ u.used.toNat ≤ g.reservoir.capacity.toNat) :
    g.restore u = .error (.usedExceedsCapacity u.used g.reservoir.capacity) := by
  rw [restore, Reservoir.setUsed, dif_neg h]
  rfl

theorem answer_exact (g : Gate) (call : GateCall) :
    (g.answer call).1 = ((of g).answer call).1 ∧ of (g.answer call).2 = ((of g).answer call).2 := by
  cases call with
  | request now units => exact g.request_exact now units
  | settle amount =>
      refine ⟨rfl, ?_⟩
      have hused := g.reservoir.used_giveBack amount.toNat
      simp only [Gate.answer, settle, ExactGate.answer, of, hused]
      congr 1
      omega
  | restore usage =>
      by_cases hfits : usage.used.toNat ≤ g.reservoir.capacity.toNat
      · have hfits' : usage.used.toNat ≤ (of g).capacity.toNat := hfits
        simp only [Gate.answer, restore_ok hfits, ExactGate.answer, if_pos hfits', true_and]
        rfl
      · have hfits' : ¬ usage.used.toNat ≤ (of g).capacity.toNat := hfits
        simp only [Gate.answer, restore_error hfits, ExactGate.answer, if_neg hfits', and_true]
        rfl
  | report =>
      simp only [Gate.answer, usage, ExactGate.answer, of, Int.toNat_natCast, UInt64.ofNat_toNat, and_self]
  | attachMeter => exact ⟨rfl, rfl⟩

end Gate

namespace MeteredGate

open ExactGate

theorem exact_related (m : MeteredGate) (e : ExactGate) (call : GateCall) (h : of m.gate = e) :
    (m.answer call).1 = (e.answer call).1 ∧ of (m.answer call).2.gate = (e.answer call).2 := by
  obtain ⟨hreply, hgate⟩ := m.answer_gate call
  rw [← h, hreply, hgate]
  exact m.gate.answer_exact call

/--
Every run of a new gate evaluates in words of 64 and 128 bits without a trap, its replies and states are
those of the gate that counts in unbounded integers, and that gate never has fewer units in use than
none or more than its capacity.
-/
theorem trace_exact (name : String) (capacity : UInt64) (calls : List GateCall) :
    let fresh := create (.create name capacity)
    fresh.gate.trace? calls = some (fresh.trace calls) ∧
      GateCall.trace answer (fun m => of m.gate) fresh calls = (empty capacity).trace calls ∧
      ∀ r ∈ (empty capacity).trace calls, 0 ≤ r.2.used ∧ r.2.used ≤ capacity.toNat := by
  intro fresh
  refine ⟨?_, ?_, fun r hr => ?_⟩
  · rw [Gate.trace?_eq, trace_gate]
  · exact GateCall.trace_eq_of_related exact_related (fun _ _ h => h) rfl calls
  · obtain ⟨hbounded, hcapacity⟩ := (bounded_of fresh.gate).trace calls r hr
    rw [← show r.2.capacity = capacity from hcapacity]
    exact ⟨hbounded.nonneg, hbounded.le⟩

end MeteredGate

end MeteredStorage
