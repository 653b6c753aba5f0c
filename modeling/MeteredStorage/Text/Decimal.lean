
namespace MeteredStorage.Decimal

def ofNat (n : Nat) : List Char := Nat.toDigits 10 n

def ofInt : Int → List Char
  | .ofNat n => ofNat n
  | .negSucc n => '-' :: ofNat (n + 1)

def padded (width n : Nat) : List Char := List.leftpad width '0' (ofNat n)

def toNat? (cs : List Char) : Option Nat :=
  if cs.isEmpty then none
  else if cs.all Char.isDigit then some (Nat.ofDigitChars 10 cs 0) else none

theorem toNat?_ofNat (n : Nat) : toNat? (ofNat n) = some n := by
  have h : ∀ c ∈ ofNat n, c.isDigit := fun c hc =>
    Nat.isDigit_of_mem_toDigits (by decide) (by decide) hc
  have hne : (ofNat n).isEmpty = false := by
    rw [List.isEmpty_eq_false_iff]
    exact Nat.toDigits_ne_nil
  rw [toNat?, hne, if_neg (by decide), if_pos (List.all_eq_true.mpr h), ofNat,
    Nat.ofDigitChars_toDigits (by decide) (by decide)]

end MeteredStorage.Decimal
