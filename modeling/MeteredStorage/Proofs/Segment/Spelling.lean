import MeteredStorage.Proofs.Segment.Name

namespace MeteredStorage

namespace Decimal

variable {cs : List Char} {n : Nat}

theorem ofNat_digit {c : Char} (h : c.isDigit) : ofNat (c.toNat - '0'.toNat) = [c] := by
  obtain ⟨hlow, hhigh⟩ := Char.isDigit_iff_toNat.mp h
  have hlt : c.toNat - '0'.toNat < 10 := by
    have hdigits : '9'.toNat = '0'.toNat + 9 := rfl
    omega
  rw [ofNat, Nat.toDigits_of_lt_base hlt, List.cons.injEq, ← Char.toNat_inj,
    Nat.toNat_digitChar_of_lt_ten hlt]
  exact ⟨Nat.add_sub_cancel' hlow, rfl⟩

/-- Digits that follow those of a number other than zero go on with the number. -/
theorem ofNat_append (hn : 0 < n) (hcs : ∀ c ∈ cs, c.isDigit) :
    ofNat n ++ cs = ofNat (Nat.ofDigitChars 10 cs n) := by
  induction cs generalizing n with
  | nil => rw [List.append_nil, Nat.ofDigitChars_nil]
  | cons c cs ih =>
      have hc := hcs c (List.mem_cons_self ..)
      have hhigh := (Char.isDigit_iff_toNat.mp hc).2
      have hdigits : '9'.toNat = '0'.toNat + 9 := rfl
      have hnext : ofNat n ++ [c] = ofNat (10 * n + (c.toNat - '0'.toNat)) := by
        rw [← ofNat_digit hc]
        exact Nat.toDigits_append_toDigits (by decide) hn (by omega)
      rw [List.append_cons, hnext, ih (by omega) fun d hd => hcs d (List.mem_cons_of_mem _ hd),
        Nat.ofDigitChars_cons]

/-- Digits are the number they are read as, after some zeros. -/
theorem eq_zeros_append (hne : cs ≠ []) (hcs : ∀ c ∈ cs, c.isDigit) :
    ∃ zeros, cs = List.replicate zeros '0' ++ ofNat (Nat.ofDigitChars 10 cs 0) := by
  induction cs with
  | nil => exact absurd rfl hne
  | cons c cs ih =>
      have hc := hcs c (List.mem_cons_self ..)
      have hrest : ∀ d ∈ cs, d.isDigit := fun d hd => hcs d (List.mem_cons_of_mem _ hd)
      rw [Nat.ofDigitChars_cons, Nat.mul_zero, Nat.zero_add]
      by_cases hzero : c.toNat - '0'.toNat = 0
      · -- A zero is one of those before the number, unless it is all there is.
        have he : c = '0' := by
          have hone := ofNat_digit hc
          rw [hzero] at hone
          exact (List.cons.inj hone).1.symm
        subst he
        cases cs with
        | nil => exact ⟨0, rfl⟩
        | cons d cs =>
            obtain ⟨zeros, hzeros⟩ := ih (List.cons_ne_nil d cs) hrest
            refine ⟨zeros + 1, ?_⟩
            rw [List.replicate_succ, List.cons_append]
            exact congrArg _ hzeros
      · refine ⟨0, ?_⟩
        rw [← ofNat_append (by omega) hrest, ofNat_digit hc]
        rfl

theorem zeros_append_eq_padded (zeros n : Nat) :
    List.replicate zeros '0' ++ ofNat n = padded (zeros + (ofNat n).length) n := by
  rw [padded, List.leftpad, Nat.add_sub_cancel]

theorem toNat?_eq_some_iff :
    toNat? cs = some n ↔ ∃ zeros, cs = List.replicate zeros '0' ++ ofNat n := by
  constructor
  · intro h
    have hdigits := fun c => isDigit_of_toNat? h (c := c)
    have hne : cs ≠ [] := by
      rintro rfl
      cases h
    rw [toNat?, if_neg (by simpa using hne), if_pos (List.all_eq_true.mpr hdigits)] at h
    rw [← Option.some.inj h]
    exact eq_zeros_append hne hdigits
  · rintro ⟨zeros, rfl⟩
    rw [zeros_append_eq_padded, toNat?_padded]

end Decimal

/-- What may come before the digits of a number. -/
@[ext]
structure Spelling where
  plus : Bool
  zeros : Nat
  deriving DecidableEq

namespace Spelling

variable {sp sp' : Spelling} {cs : List Char} {name file : String} {index : UInt32}

def digits (sp : Spelling) (n : Nat) : List Char := List.replicate sp.zeros '0' ++ Decimal.ofNat n

def word (sp : Spelling) (n : Nat) : List Char := if sp.plus then '+' :: sp.digits n else sp.digits n

def fileName (sp : Spelling) (name : String) (index : UInt32) : String :=
  name ++ String.ofList ('_' :: (sp.word index.toNat ++ SegmentName.extension))

def generated (index : UInt32) : Spelling := ⟨false, 8 - (Decimal.ofNat index.toNat).length⟩

theorem fileName_generated (name : String) (index : UInt32) :
    (generated index).fileName name index = SegmentName.ofIndex name index := rfl

theorem plus_not_mem_digits (sp : Spelling) (n : Nat) : '+' ∉ sp.digits n := by
  rw [digits, Decimal.zeros_append_eq_padded]
  exact fun h => absurd (Decimal.isDigit_of_mem_padded h) (by decide)

theorem word_inj {n : Nat} (h : sp.word n = sp'.word n) : sp = sp' := by
  have hsign : sp.plus = sp'.plus := by
    have hmem (s : Spelling) : '+' ∈ s.word n ↔ s.plus = true := by
      rcases s with ⟨_ | _, zeros⟩
      · exact ⟨fun h => absurd h (plus_not_mem_digits _ n), nofun⟩
      · exact ⟨fun _ => rfl, fun _ => List.mem_cons_self ..⟩
    rw [Bool.eq_iff_iff, ← hmem, h, hmem]
  have hzeros : sp.zeros = sp'.zeros := by
    have hlength := congrArg List.length h
    simp only [word, digits, hsign] at hlength
    split at hlength
    · simpa using hlength
    · simpa using hlength
  exact Spelling.ext hsign hzeros

theorem word?_eq_some_iff : SegmentName.word? cs = some index ↔ ∃ sp, cs = word sp index.toNat := by
  constructor
  · intro h
    obtain ⟨n, hn, hindex⟩ := Option.bind_eq_some_iff.mp h
    have hword : n = index.toNat := by
      split at hindex
      · rw [← Option.some.inj hindex, UInt32.toNat_ofNat', Nat.mod_eq_of_lt ‹_›]
      · cases hindex
    obtain ⟨zeros, hzeros⟩ := Decimal.toNat?_eq_some_iff.mp hn
    split at hzeros
    · exact ⟨⟨true, zeros⟩, by rw [hzeros, hword]; rfl⟩
    · exact ⟨⟨false, zeros⟩, by rw [hzeros, hword]; rfl⟩
  · rintro ⟨⟨plus, zeros⟩, rfl⟩
    have hdigits : Decimal.toNat? (digits ⟨plus, zeros⟩ index.toNat) = some index.toNat :=
      Decimal.toNat?_eq_some_iff.mpr ⟨zeros, rfl⟩
    cases plus with
    | true =>
        unfold SegmentName.word?
        simp [word, hdigits, index.toNat_lt]
    | false =>
        have hplus := plus_not_mem_digits ⟨false, zeros⟩ index.toNat
        rw [show word ⟨false, zeros⟩ index.toNat = digits ⟨false, zeros⟩ index.toNat from rfl]
        unfold SegmentName.word?
        split
        · rename_i ds heq
          exact absurd (heq ▸ List.mem_cons_self ..) hplus
        · simp [hdigits, index.toNat_lt]

theorem toList_fileName (sp : Spelling) (name : String) (index : UInt32) :
    (sp.fileName name index).toList =
      (name.toList ++ ['_']) ++ (sp.word index.toNat ++ SegmentName.extension) := by
  simp [fileName]

theorem fileName_inj (h : sp.fileName name index = sp'.fileName name index) : sp = sp' := by
  have hlist := congrArg String.toList h
  rw [toList_fileName, toList_fileName] at hlist
  exact word_inj (List.append_cancel_right (List.append_cancel_left hlist))

end Spelling

namespace SegmentName

/-- A file name is read as an index exactly if it is one of its spellings. -/
theorem index?_eq_some_iff {name file : String} {index : UInt32} :
    index? name file = some index ↔ ∃ sp : Spelling, file = sp.fileName name index := by
  constructor
  · intro h
    obtain ⟨behind, hbehind, h⟩ := Option.bind_eq_some_iff.mp h
    obtain ⟨word, hword, h⟩ := Option.bind_eq_some_iff.mp h
    obtain ⟨sp, rfl⟩ := Spelling.word?_eq_some_iff.mp h
    refine ⟨sp, String.ext ?_⟩
    rw [append_of_isPrefixOf? hbehind, append_of_isSuffixOf? hword, Spelling.toList_fileName]
  · rintro ⟨sp, rfl⟩
    have hword : word? (sp.word index.toNat) = some index := Spelling.word?_eq_some_iff.mpr ⟨sp, rfl⟩
    simp only [index?, Spelling.toList_fileName, isPrefixOf?_append, isSuffixOf?_append, bind,
      Option.bind, hword]

end SegmentName

end MeteredStorage
