import MeteredStorage.Proofs.Admission.Exactness

namespace MeteredStorage

def owed : List UInt64 → Nat
  | [] => 0
  | unused :: pending => unused.toNat + owed pending

theorem owed_erase {pending : List UInt64} {unused : UInt64} (h : unused ∈ pending) :
    owed pending = unused.toNat + owed (pending.erase unused) := by
  induction pending with
  | nil => nomatch h
  | cons first pending ih =>
      by_cases hfirst : first = unused
      · rw [hfirst, List.erase_cons_head, owed]
      · have hrest := ih ((List.mem_cons.mp h).resolve_left (Ne.symm hfirst))
        rw [List.erase_cons_tail (by simpa using hfirst), owed, owed, hrest]
        omega

/-- A gate with the books kept beside it. -/
structure Settlement where
  gate : MeteredGate
  /-- Exact accounting, over the times of the gate's decisions. -/
  exact : ExactGate
  /-- What will be returned of each reservation that is not settled yet. -/
  pending : List UInt64
  /-- The most by which, at a decision, the units left after draining fell short of those to be returned. -/
  shortfall : Int

namespace Settlement

open ExactGate

def empty (capacity : UInt64) : Settlement := ⟨.create (.forGas capacity), .empty capacity, [], 0⟩

def outstanding (b : Settlement) : Nat := owed b.pending

/-- The books after a decision at `now` that leaves the gate `m` and admits work that consumes `amount`. -/
def afterDecision (b : Settlement) (now : Instant) (m : MeteredGate) (amount : Int) (pending : List UInt64) :
    Settlement where
  gate := m
  exact := b.exact.charge now amount
  pending := pending
  shortfall := max b.shortfall (b.outstanding - (of b.gate.gate).level now)

def settle (b : Settlement) (unused : UInt64) : Settlement :=
  { b with gate := b.gate.settle unused, pending := b.pending.erase unused }

/--
Runs of a gate that starts empty. Of each reservation `unused` units will be returned, none if it is
never settled; whether a run is at its end shows in what is pending.
-/
inductive Run (capacity : UInt64) : Settlement → Prop
  | opened : Run capacity (empty capacity)
  | admitted {b : Settlement} {now : Instant} {units unused : UInt64} {m : MeteredGate} :
      Run capacity b → b.gate.request now units = .ok (true, m) → unused.toNat ≤ units.toNat →
      Run capacity (b.afterDecision now m (units.toNat - unused.toNat) (unused :: b.pending))
  | rejected {b : Settlement} {now : Instant} {units : UInt64} {m : MeteredGate} :
      Run capacity b → b.gate.request now units = .ok (false, m) →
      Run capacity (b.afterDecision now m 0 b.pending)
  | refused {b : Settlement} {now : Instant} {units : UInt64} {reason : AdmissionError} :
      Run capacity b → b.gate.request now units = .error reason → Run capacity b
  | settled {b : Settlement} {unused : UInt64} :
      Run capacity b → unused ∈ b.pending → Run capacity (b.settle unused)
  | attached {b : Settlement} :
      Run capacity b → Run capacity { b with gate := b.gate.attachMeter }

structure Balanced (b : Settlement) : Prop where
  capacity : b.exact.capacity = b.gate.gate.reservoir.capacity
  last : b.exact.last = b.gate.gate.last
  covered : b.exact.used + b.outstanding ≤ b.gate.gate.reservoir.used.toNat + b.shortfall

theorem of_request {m m' : MeteredGate} {now : Instant} {units : UInt64} {admitted : Bool}
    (h : m.request now units = .ok (admitted, m')) :
    of m'.gate = (of m.gate).charge now (if admitted then units.toNat else 0) := by
  have hanswer : m.answer (.request now units) = (.decided admitted, m') := by
    rw [MeteredGate.answer, h]
  obtain ⟨hreply, hgate⟩ := m.exact_related _ (.request now units) rfl
  rw [hanswer] at hreply hgate
  rcases (of m.gate).request_cases now units with ⟨-, he⟩ | ⟨-, -, he⟩ | ⟨-, he⟩ <;>
    rw [he] at hreply hgate
  · cases hreply
  · cases hreply
    exact hgate
  · cases hreply
    exact hgate

/-- Draining takes no more from usage than from exact usage, unless it takes what is still to be returned. -/
theorem Balanced.afterDecision {b : Settlement} (h : Balanced b) {now : Instant} {m : MeteredGate}
    {taken : Nat} {unused : Int} {pending : List UInt64}
    (hm : of m.gate = (of b.gate.gate).charge now taken)
    (hpending : (owed pending : Int) = b.outstanding + unused) :
    Balanced (b.afterDecision now m (taken - unused) pending) where
  capacity := h.capacity.trans (congrArg ExactGate.capacity hm).symm
  last := (congrArg ExactGate.last hm).symm
  covered := by
    have hdrained : b.exact.drained now = (of b.gate.gate).drained now := by
      rw [drained, drained, lapse, lapse, h.last, h.capacity]
      rfl
    have hused : (m.gate.reservoir.used.toNat : Int) = (of b.gate.gate).level now + taken :=
      congrArg ExactGate.used hm
    have hlevel : (of b.gate.gate).level now =
        max 0 (b.gate.gate.reservoir.used.toNat - (of b.gate.gate).drained now) := rfl
    have hexact : (b.exact.charge now (taken - unused)).used =
        max 0 (b.exact.used - (of b.gate.gate).drained now) + (taken - unused) := by
      rw [charge, level, hdrained]
    have hcovered := h.covered
    -- Where exact usage drains to nothing, the shortfall makes up for what is still to be returned.
    change (b.exact.charge now (taken - unused)).used + (owed pending : Int) ≤
      m.gate.reservoir.used.toNat + max b.shortfall (b.outstanding - (of b.gate.gate).level now)
    omega

theorem Balanced.settle {b : Settlement} (h : Balanced b) {unused : UInt64}
    (hmem : unused ∈ b.pending) : Balanced (b.settle unused) where
  capacity := h.capacity
  last := h.last
  covered := by
    have hused := b.gate.gate.reservoir.used_giveBack unused.toNat
    have howed := owed_erase hmem
    have hcovered := h.covered
    change b.exact.used + (owed (b.pending.erase unused) : Int) ≤
      (b.gate.gate.reservoir.giveBack unused.toNat).used.toNat + b.shortfall
    rw [outstanding] at hcovered
    omega

theorem Run.balanced {capacity : UInt64} {b : Settlement} (h : Run capacity b) : Balanced b := by
  induction h with
  | opened => exact ⟨rfl, rfl, Int.le_refl 0⟩
  | @admitted b _ _ unused _ _ hm _ ih =>
      have hone : (owed (unused :: b.pending) : Int) = b.outstanding + (unused.toNat : Int) := by
        rw [owed, outstanding, Int.natCast_add, Int.add_comm]
      exact ih.afterDecision (of_request hm) hone
  | @rejected b _ _ _ _ hm ih =>
      have hnone : (owed b.pending : Int) = b.outstanding + 0 := (Int.add_zero _).symm
      exact ih.afterDecision (of_request hm) hnone
  | refused _ _ ih => exact ih
  | settled _ hmem ih => exact ih.settle hmem
  | attached _ ih => exact ⟨ih.capacity, ih.last, ih.covered⟩

/--
At any moment, exact usage and what is still to be returned are covered by the usage, but for what time
had drained of returns that came later.
-/
theorem Run.exact_le_used {capacity : UInt64} {b : Settlement} (h : Run capacity b) :
    b.exact.used + b.outstanding ≤ b.gate.gate.reservoir.used.toNat + b.shortfall :=
  h.balanced.covered

theorem exists_late_return :
    ∃ b, Run 100 b ∧ (∀ unused ∈ b.pending, unused = 0) ∧ b.gate.gate.reservoir.used = 0 ∧
      b.exact.used = 100 := by
  have hfirst : Run 100 _ := @Run.admitted _ _ (.ofSeconds 0) 100 100 _ .opened rfl (by decide)
  have hsecond : Run 100 _ := @Run.admitted _ _ (.ofSeconds 1) 100 0 _ hfirst rfl (by decide)
  have hlate : Run 100 _ := @Run.settled _ _ 100 hsecond (by decide)
  exact ⟨_, hlate, fun _ h => List.mem_singleton.mp h, rfl, rfl⟩

/-- A return that comes after its units have drained leaves nothing of a reservation made meanwhile. -/
theorem used_below_exact :
    ∃ b, Run 100 b ∧ (∀ unused ∈ b.pending, unused = 0) ∧ b.gate.gate.reservoir.used = 0 ∧
      b.exact.used = 100 ∧
      b.exact.used + b.outstanding ≤ b.gate.gate.reservoir.used.toNat + b.shortfall := by
  obtain ⟨b, hrun, hsettled, hused, hexact⟩ := exists_late_return
  exact ⟨b, hrun, hsettled, hused, hexact, Run.exact_le_used hrun⟩

/-- So usage does not cover the exact one in all runs, though all that is returned has been. -/
theorem not_exact_le_used_of_settled :
    ¬∀ (capacity : UInt64) (b : Settlement), Run capacity b → (∀ unused ∈ b.pending, unused = 0) →
      b.exact.used ≤ b.gate.gate.reservoir.used.toNat := by
  intro hall
  obtain ⟨b, hrun, hsettled, hused, hexact⟩ := exists_late_return
  have hle := hall 100 b hrun hsettled
  rw [hused, hexact] at hle
  exact absurd hle (by decide)

end Settlement

end MeteredStorage
