import MeteredStorage.Bytes.Basic

namespace MeteredStorage

namespace Word

/-- The result `n` of an operation on words with the values in `[lo, hi)`; none if it overflows. -/
def checked (lo hi n : Int) : Option Int := if lo ≤ n ∧ n < hi then some n else none

def unsigned32 (n : Int) : Option Int := checked 0 0x100000000 n
def unsigned64 (n : Int) : Option Int := checked 0 0x10000000000000000 n
def unsigned128 (n : Int) : Option Int := checked 0 0x100000000000000000000000000000000 n
def signed64 (n : Int) : Option Int := checked (-0x8000000000000000) 0x8000000000000000 n
def signed128 (n : Int) : Option Int :=
  checked (-0x80000000000000000000000000000000) 0x80000000000000000000000000000000 n

def natural (width n : Nat) : Option Nat := if n < 1 <<< width then some n else none

theorem natural_eq_some {width n : Nat} (h : n < 1 <<< width) : natural width n = some n := if_pos h

theorem checked_eq_some {lo hi n : Int} (hlo : lo ≤ n) (hhi : n < hi) : checked lo hi n = some n :=
  if_pos ⟨hlo, hhi⟩

theorem checked_eq_none {lo hi n : Int} (h : ¬ (lo ≤ n ∧ n < hi)) : checked lo hi n = none := if_neg h

theorem checked_bind {α : Type} {f : Int → Option α} {lo hi n : Int} (hlo : lo ≤ n) (hhi : n < hi) :
    checked lo hi n >>= f = f n := by
  rw [checked_eq_some hlo hhi]
  rfl

end Word

end MeteredStorage
