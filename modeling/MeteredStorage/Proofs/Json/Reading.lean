import MeteredStorage.Json.Record
import MeteredStorage.Proofs.Json.Grammar

namespace MeteredStorage

namespace Decimal

theorem isDigit_of_mem_ofNat {n : Nat} {c : Char} (h : c ∈ ofNat n) : c.isDigit = true :=
  Nat.isDigit_of_mem_toDigits (by decide) (by decide) h

theorem ofNat_eq_cons (n : Nat) : ∃ c cs, ofNat n = c :: cs ∧ c.isDigit = true := by
  obtain ⟨c, cs, h⟩ := List.exists_cons_of_ne_nil (Nat.toDigits_ne_nil (n := n) (b := 10))
  have hmem : c ∈ ofNat n := by rw [ofNat, h]; exact List.mem_cons_self ..
  exact ⟨c, cs, h, isDigit_of_mem_ofNat hmem⟩

theorem ofNat_ne_zero_cons {n : Nat} (hn : 0 < n) (cs : List Char) : ofNat n ≠ '0' :: cs := by
  induction n using Nat.strongRecOn generalizing cs with
  | ind n ih =>
      intro h
      rw [ofNat] at h
      by_cases hlt : n < 10
      · rw [Nat.toDigits_of_lt_base hlt] at h
        obtain rfl | rfl | rfl | rfl | rfl | rfl | rfl | rfl | rfl :
            n = 1 ∨ n = 2 ∨ n = 3 ∨ n = 4 ∨ n = 5 ∨ n = 6 ∨ n = 7 ∨ n = 8 ∨ n = 9 := by omega
        all_goals revert h; simp [Nat.digitChar]
      · rw [Nat.toDigits_of_base_le (by decide) (by omega)] at h
        obtain ⟨d, ds, hds, -⟩ := ofNat_eq_cons (n / 10)
        rw [← ofNat, hds, List.cons_append, List.cons.injEq] at h
        exact ih (n / 10) (by omega) (by omega) ds (by rw [hds, h.1])

end Decimal

namespace Json

open Decimal

variable {rest s : List Char} {c : Char}

theorem skipBlanks_cons (h : isBlank c = false) (s : List Char) : skipBlanks (c :: s) = c :: s :=
  List.dropWhile_cons_of_neg (by simp [h])

@[simp]
theorem skipBlanks_blanks (b : Blanks) (s : List Char) : skipBlanks (b.chars ++ s) = skipBlanks s :=
  List.dropWhile_append_of_pos b.blank

theorem isBlank_cases (h : isBlank c = true) : c = ' ' ∨ c = '\n' ∨ c = '\t' ∨ c = '\r' := by
  simpa [isBlank, or_assoc] using h

theorem isBlank_of_isDigit (h : c.isDigit = true) : isBlank c = false := by
  refine Bool.eq_false_iff.mpr fun hb => ?_
  obtain rfl | rfl | rfl | rfl := isBlank_cases hb <;> cases h

def endsDigits : List Char → Bool
  | c :: _ => !c.isDigit
  | [] => true

def endsNumber : List Char → Bool
  | c :: _ => !c.isDigit && !(c == '.' || c == 'e' || c == 'E')
  | [] => true

theorem takeWhile_of_endsDigits (h : endsDigits rest = true) : rest.takeWhile Char.isDigit = [] := by
  cases rest with
  | nil => rfl
  | cons c cs =>
      simp only [endsDigits, Bool.not_eq_true'] at h
      rw [List.takeWhile_cons_of_neg (by simp [h])]

theorem dropWhile_of_endsDigits (h : endsDigits rest = true) : rest.dropWhile Char.isDigit = rest := by
  cases rest with
  | nil => rfl
  | cons c cs =>
      simp only [endsDigits, Bool.not_eq_true'] at h
      rw [List.dropWhile_cons_of_neg (by simp [h])]

theorem endsDigits_of_endsNumber (h : endsNumber rest = true) : endsDigits rest = true := by
  cases rest with
  | nil => rfl
  | cons c cs =>
      simp only [endsNumber, Bool.and_eq_true] at h
      exact h.1

theorem continuesNumber_of_endsNumber (h : endsNumber rest = true) : continuesNumber rest = false := by
  cases rest with
  | nil => rfl
  | cons c cs =>
      simp only [endsNumber, Bool.and_eq_true, Bool.not_eq_true'] at h
      exact h.2

theorem endsNumber_blanks (b : Blanks) (h : endsNumber rest = true) :
    endsNumber (b.chars ++ rest) = true := by
  obtain ⟨chars, blank⟩ := b
  cases chars with
  | nil => exact h
  | cons c cs => obtain rfl | rfl | rfl | rfl := isBlank_cases (blank c (List.mem_cons_self ..)) <;> rfl

theorem digits?_ofNat (n : Nat) (h : endsDigits rest = true) :
    digits? (ofNat n ++ rest) = some (n, rest) := by
  have htake : (ofNat n ++ rest).takeWhile Char.isDigit = ofNat n := by
    rw [List.takeWhile_append_of_pos fun c hc => isDigit_of_mem_ofNat hc, takeWhile_of_endsDigits h,
      List.append_nil]
  have hdrop : (ofNat n ++ rest).dropWhile Char.isDigit = rest := by
    rw [List.dropWhile_append_of_pos fun c hc => isDigit_of_mem_ofNat hc, dropWhile_of_endsDigits h]
  have hvalue : Nat.ofDigitChars 10 (ofNat n) 0 = n := Nat.ofDigitChars_toDigits (by decide) (by decide)
  rw [digits?, htake, hdrop]
  split
  · next hnil => exact absurd hnil Nat.toDigits_ne_nil
  · next d ds hzero =>
      -- The only number whose digits start with zero is zero, and it has one digit.
      cases n with
      | zero => simp [ofNat] at hzero
      | succ n => exact absurd hzero (ofNat_ne_zero_cons (Nat.succ_pos n) _)
  · rw [hvalue]

theorem integer?_ofInt (i : Int) (h : endsNumber rest = true) :
    integer? (ofInt i ++ rest) = some (i, rest) := by
  have hends := continuesNumber_of_endsNumber h
  have hdigits := endsDigits_of_endsNumber h
  cases i with
  | ofNat n =>
      obtain ⟨c, cs, hc, hdigit⟩ := ofNat_eq_cons n
      rw [ofInt, integer?.eq_def]
      split
      · next s hs =>
          rw [hc] at hs
          cases hs
          exact absurd hdigit (by decide)
      · simp only [digits?_ofNat n hdigits, Option.bind_eq_bind, Option.bind_some, hends]
        rfl
  | negSucc n =>
      simp only [ofInt, List.cons_append, integer?, digits?_ofNat (n + 1) hdigits, Option.bind_eq_bind,
        Option.bind_some, hends]
      rfl

theorem skipBlanks_ofInt (i : Int) (s : List Char) : skipBlanks (ofInt i ++ s) = ofInt i ++ s := by
  cases i with
  | ofNat n =>
      obtain ⟨c, cs, hc, hdigit⟩ := ofNat_eq_cons n
      rw [ofInt, hc]
      exact skipBlanks_cons (isBlank_of_isDigit hdigit) _
  | negSucc n => exact skipBlanks_cons rfl _

theorem integerIn_ofInt {ε : Type} {lo hi i : Int} (b : Blanks) (hlo : lo ≤ i) (hhi : i < hi)
    (h : endsNumber rest = true) :
    (integerIn lo hi : Reader ε Int) (b.chars ++ (ofInt i ++ rest)) = .ok (i, rest) := by
  simp only [integerIn, lift, skipBlanks_blanks, skipBlanks_ofInt, integer?_ofInt i h, bind, Except.bind,
    hlo, hhi, and_self, if_true]

theorem isPlain_iff : isPlain c = true ↔ c ≠ '"' ∧ c ≠ '\\' ∧ 0x20 ≤ c.toNat := by
  simp [isPlain, and_assoc]

theorem ne_unit_of_escaped {e : Char} (h : escaped? e = some c) : e ≠ 'u' := by
  rintro rfl
  cases h

theorem isLowSurrogate_of_high {n : Nat} (h : isHighSurrogate n = true) : isLowSurrogate n = false := by
  simp only [isHighSurrogate, isLowSurrogate, Bool.and_eq_true, decide_eq_true_eq, Bool.and_eq_false_iff,
    decide_eq_false_iff_not] at h ⊢
  omega

theorem string?_spells {name spelled : List Char} (h : Spells name spelled) (s : List Char) :
    string? (spelled ++ s) = some (name, s) := by
  induction h with
  | close => rw [List.singleton_append, string?]
  | plain hc _ ih =>
      obtain ⟨hquote, hescape, hcontrol⟩ := isPlain_iff.mp hc
      rw [List.cons_append, string?.eq_4 _ _ hquote (fun _ _ _ _ _ he => absurd he hescape)
        (fun _ _ he => absurd he hescape), if_neg (Nat.not_lt.mpr hcontrol), ih]
      rfl
  | short he _ ih =>
      rw [List.cons_append, List.cons_append,
        string?.eq_3 _ _ (fun _ _ _ _ _ hu _ => ne_unit_of_escaped he hu), he, Option.bind_eq_bind,
        Option.bind_some, ih]
      rfl
  | unit hu hlow hhigh _ ih =>
      simp only [List.cons_append, string?, hu, hlow, hhigh, Option.bind_eq_bind, Option.bind_some, ih]
      rfl
  | pair hu hhigh hu' hlow _ ih =>
      simp only [List.cons_append, string?, hu, hu', isLowSurrogate_of_high hhigh, hhigh, hlow,
        Option.bind_eq_bind, Option.bind_some, ih]
      rfl

theorem spells_plain (name : List Char) (h : name.all isPlain = true) : Spells name (name ++ ['"']) := by
  induction name with
  | nil => exact .close
  | cons c cs ih =>
      rw [List.all_cons, Bool.and_eq_true] at h
      exact .plain h.1 (ih h.2)

end Json

end MeteredStorage
