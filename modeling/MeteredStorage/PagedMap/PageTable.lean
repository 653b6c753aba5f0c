
namespace MeteredStorage

structure PageTable where
  slots : List (Nat × Int64)

namespace PageTable

def empty : PageTable := ⟨[]⟩

def get (t : PageTable) (bucket : Nat) : Int64 := (t.slots.lookup bucket).getD 0

def setIn (bucket : Nat) (location : Int64) : List (Nat × Int64) → List (Nat × Int64)
  | [] => [(bucket, location)]
  | (b, l) :: rest =>
    if b = bucket then (bucket, location) :: rest else (b, l) :: setIn bucket location rest

def set (t : PageTable) (bucket : Nat) (location : Int64) : PageTable :=
  ⟨setIn bucket location t.slots⟩

def stored (t : PageTable) : Nat := t.slots.countP (·.2 != 0)

theorem lookup_cons_of_ne {b c : Nat} (h : b ≠ c) (l : Int64) (rest : List (Nat × Int64)) :
    ((c, l) :: rest).lookup b = rest.lookup b := by
  rw [List.lookup_cons, beq_false_of_ne h]

theorem lookup_setIn (bucket : Nat) (location : Int64) (slots : List (Nat × Int64)) (b : Nat) :
    (setIn bucket location slots).lookup b = if b = bucket then some location else slots.lookup b := by
  induction slots with
  | nil =>
    by_cases h : b = bucket
    · simp [setIn, h, List.lookup_cons_self]
    · simp [setIn, h, lookup_cons_of_ne h]
  | cons s rest ih =>
    obtain ⟨c, l⟩ := s
    by_cases hc : c = bucket
    · by_cases h : b = bucket
      · simp [setIn, hc, h, List.lookup_cons_self]
      · simp [setIn, hc, h, lookup_cons_of_ne h]
    · by_cases h : b = c
      · simp [setIn, hc, h, List.lookup_cons_self]
      · simp [setIn, hc, lookup_cons_of_ne h, ih]

theorem get_set (t : PageTable) (bucket : Nat) (location : Int64) (b : Nat) :
    (t.set bucket location).get b = if b = bucket then location else t.get b := by
  rw [get, set, lookup_setIn]
  split <;> rfl

end PageTable

end MeteredStorage
