import MeteredStorage.Admission.Error

namespace MeteredStorage

structure Reservoir where
  capacity : UInt64
  used : UInt64
  used_le : used.toNat ≤ capacity.toNat
  deriving DecidableEq

namespace Reservoir

def empty (capacity : UInt64) : Reservoir := ⟨capacity, 0, by simp⟩

def setUsed (r : Reservoir) (used : UInt64) : Except AdmissionError Reservoir :=
  if h : used.toNat ≤ r.capacity.toNat then .ok { r with used := used, used_le := h }
  else .error (.usedExceedsCapacity used r.capacity)

def withUsed (capacity used : UInt64) : Except AdmissionError Reservoir :=
  (empty capacity).setUsed used

def free (r : Reservoir) : UInt64 := r.capacity - r.used

theorem toNat_free (r : Reservoir) : r.free.toNat = r.capacity.toNat - r.used.toNat :=
  UInt64.toNat_sub_of_le _ _ (UInt64.le_iff_toNat_le.mpr r.used_le)

def take (r : Reservoir) (amount : UInt64) : Except AdmissionError Reservoir :=
  if h : amount.toNat ≤ r.free.toNat then
    .ok { r with
      used := r.used + amount
      used_le := by
        have := r.toNat_free
        have := r.used_le
        rw [UInt64.toNat_add]
        exact Nat.le_trans (Nat.mod_le _ _) (by omega) }
  else .error (.insufficientCapacity amount r.free)

def giveBack (r : Reservoir) (amount : Nat) : Reservoir :=
  { r with
    used := UInt64.ofNat (r.used.toNat - amount)
    used_le := by
      have := r.used_le
      rw [UInt64.toNat_ofNat']
      exact Nat.le_trans (Nat.mod_le _ _) (by omega) }

def drained (r : Reservoir) (elapsed : UInt64) : Nat :=
  min (elapsed.toNat * r.capacity.toNat / nanosPerSecond) maxWord

def leak (r : Reservoir) (elapsed : UInt64) : Reservoir := r.giveBack (r.drained elapsed)

theorem used_giveBack (r : Reservoir) (amount : Nat) :
    (r.giveBack amount).used.toNat = r.used.toNat - amount := by
  have := r.used.toNat_lt
  rw [giveBack, UInt64.toNat_ofNat', Nat.mod_eq_of_lt (by omega)]

end Reservoir

end MeteredStorage
