import MeteredStorage.Proofs.Admission.Exactness
import MeteredStorage.Proofs.Admission.Forms

namespace MeteredStorage

namespace ExactGate

theorem usage_eq_of_eq {g h : Gate} (heq : of g = of h) : g.usage = h.usage := by
  simp only [of, ExactGate.mk.injEq] at heq
  obtain ⟨-, hused, hlast⟩ := heq
  rw [Gate.usage, Gate.usage, hlast, UInt64.toNat_inj.mp (Int.ofNat_inj.mp hused)]

end ExactGate

namespace MeteredGate

open ExactGate

theorem answer_congr (m n : MeteredGate) (call : GateCall) (h : of m.gate = of n.gate) :
    (m.answer call).1 = (n.answer call).1 ∧ of (m.answer call).2.gate = of (n.answer call).2.gate := by
  obtain ⟨hreply, hgate⟩ := m.exact_related (of n.gate) call h
  obtain ⟨hreply', hgate'⟩ := n.exact_related (of n.gate) call rfl
  exact ⟨hreply.trans hreply'.symm, hgate.trans hgate'.symm⟩

theorem trace_congr {m n : MeteredGate} (h : of m.gate = of n.gate) (calls : List GateCall) :
    m.trace calls = n.trace calls :=
  GateCall.trace_eq_of_related answer_congr (fun _ _ h => usage_eq_of_eq h) h calls

theorem restore_usage (m : MeteredGate) (name : String) :
    ∃ resumed, (create (.create name m.gate.reservoir.capacity)).restore m.gate.usage = .ok resumed ∧
      of resumed.gate = of m.gate := by
  have hfits : m.gate.usage.used.toNat ≤
      (Gate.create name m.gate.reservoir.capacity).reservoir.capacity.toNat := m.gate.reservoir.used_le
  rw [restore, create, Gate.restore_ok hfits]
  exact ⟨_, rfl, rfl⟩

/--
The usage of a gate, in whatever state, survives both of its forms, and a new gate of the same capacity
that is restored to it gives to all calls from then on the same replies, with the same usage after each.
-/
theorem resumed_trace (m : MeteredGate) (name : String) :
    Usage.decode m.gate.usage.encode = .ok m.gate.usage ∧
      Usage.ofJson m.gate.usage.toJson = .ok m.gate.usage ∧
      ∃ resumed, (create (.create name m.gate.reservoir.capacity)).restore m.gate.usage = .ok resumed ∧
        ∀ calls, resumed.trace calls = m.trace calls := by
  obtain ⟨resumed, hrestore, hsame⟩ := m.restore_usage name
  exact ⟨m.gate.usage.decode_encode, m.gate.usage.ofJson_toJson, resumed, hrestore, trace_congr hsame⟩

end MeteredGate

end MeteredStorage
