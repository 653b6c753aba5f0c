import MeteredStorage.Segment.Name
import MeteredStorage.Disk.Path

namespace MeteredStorage

namespace Decimal

theorem isDigit_of_mem_padded {width n : Nat} {c : Char} (hc : c ∈ padded width n) : c.isDigit := by
  rcases List.mem_append.mp hc with hc | hc
  · rw [List.eq_of_mem_replicate hc]
    decide
  · exact Nat.isDigit_of_mem_toDigits (by decide) (by decide) hc

theorem isDigit_of_toNat? {cs : List Char} {n : Nat} (h : toNat? cs = some n) {c : Char} (hc : c ∈ cs) :
    c.isDigit := by
  rw [toNat?] at h
  split at h
  · cases h
  · split at h
    · exact List.all_eq_true.mp ‹_› c hc
    · cases h

theorem padded_ne_nil (width n : Nat) : padded width n ≠ [] :=
  List.append_ne_nil_of_right_ne_nil _ Nat.toDigits_ne_nil

theorem toNat?_padded (width n : Nat) : toNat? (padded width n) = some n := by
  have hne : (padded width n).isEmpty = false := by simp [padded_ne_nil]
  rw [toNat?, hne, if_neg (by decide),
    if_pos (List.all_eq_true.mpr fun c hc => isDigit_of_mem_padded hc), padded, List.leftpad,
    Nat.ofDigitChars_append, Nat.ofDigitChars_replicate_zero, Nat.mul_zero, ofNat,
    Nat.ofDigitChars_toDigits (by decide) (by decide)]

end Decimal

namespace Text

variable {separator : Char}

theorem pieces_of_not_mem {cs : List Char} (h : separator ∉ cs) : pieces separator cs = [cs] := by
  induction cs with
  | nil => rfl
  | cons c cs ih =>
      have hc : c ≠ separator := fun he => h (he ▸ List.mem_cons_self ..)
      rw [pieces, if_neg hc, ih fun hm => h (List.mem_cons_of_mem _ hm)]

theorem pieces_append (cs : List Char) {ds : List Char} (h : separator ∉ ds) :
    ∃ outer last, separator ∉ last ∧ pieces separator (cs ++ ds) = outer ++ [last ++ ds] := by
  induction cs with
  | nil => exact ⟨[], [], List.not_mem_nil, pieces_of_not_mem h⟩
  | cons c cs ih =>
      obtain ⟨outer, last, hl, hp⟩ := ih
      rw [List.cons_append, pieces, hp]
      by_cases hc : c = separator
      · exact ⟨[] :: outer, last, hl, by rw [if_pos hc]; rfl⟩
      · rw [if_neg hc]
        cases outer with
        | nil =>
            refine ⟨[], c :: last, fun hm => ?_, rfl⟩
            rcases List.mem_cons.mp hm with he | hm
            · exact hc he.symm
            · exact hl hm
        | cons piece outer => exact ⟨(c :: piece) :: outer, last, hl, rfl⟩

end Text

namespace SegmentName

def Plain (text : String) : Prop := '/' ∉ text.toList

instance (text : String) : Decidable (Plain text) := inferInstanceAs (Decidable (¬ _))

def ending (index : UInt32) : List Char := '_' :: (Decimal.padded 8 index.toNat ++ extension)

theorem toList_ofIndex (name : String) (index : UInt32) :
    (ofIndex name index).toList = name.toList ++ ending index := by
  simp [ofIndex, ending]

theorem not_mem_ending {c : Char} (index : UInt32) (hc : c ≠ '_') (hd : ¬c.isDigit)
    (he : c ∉ extension) : c ∉ ending index := by
  intro h
  rcases List.mem_cons.mp h with h | h
  · exact hc h
  · rcases List.mem_append.mp h with h | h
    · exact hd (Decimal.isDigit_of_mem_padded h)
    · exact he h

theorem slash_not_mem_ending (index : UInt32) : '/' ∉ ending index :=
  not_mem_ending index (by decide) (by decide) (by decide)

theorem isPrefixOf?_cons (c d : Char) (cs ds : List Char) :
    (c :: cs).isPrefixOf? (d :: ds) = if c == d then cs.isPrefixOf? ds else none := rfl

theorem isPrefixOf?_append (cs ds : List Char) : cs.isPrefixOf? (cs ++ ds) = some ds := by
  induction cs with
  | nil => rfl
  | cons c cs ih => rw [List.cons_append, isPrefixOf?_cons, if_pos (beq_self_eq_true c), ih]

theorem append_of_isPrefixOf? {cs ds rest : List Char} (h : cs.isPrefixOf? ds = some rest) :
    ds = cs ++ rest := by
  induction cs generalizing ds with
  | nil => exact Option.some.inj h
  | cons c cs ih =>
      cases ds with
      | nil => cases h
      | cons d ds =>
          rw [isPrefixOf?_cons] at h
          split at h
          · rename_i hc
            rw [eq_of_beq hc, ih h, List.cons_append]
          · cases h

theorem isSuffixOf?_append (cs ds : List Char) : ds.isSuffixOf? (cs ++ ds) = some cs := by
  change (ds.reverse.isPrefixOf? (cs ++ ds).reverse).map List.reverse = some cs
  rw [List.reverse_append, isPrefixOf?_append, Option.map_some, List.reverse_reverse]

theorem append_of_isSuffixOf? {cs ds rest : List Char} (h : ds.isSuffixOf? cs = some rest) :
    cs = rest ++ ds := by
  obtain ⟨front, hfront, rfl⟩ := Option.map_eq_some_iff.mp h
  rw [← List.reverse_reverse cs, append_of_isPrefixOf? hfront, List.reverse_append,
    List.reverse_reverse]

theorem word?_padded (index : UInt32) : word? (Decimal.padded 8 index.toNat) = some index := by
  have hplus : '+' ∉ Decimal.padded 8 index.toNat := fun h =>
    absurd (Decimal.isDigit_of_mem_padded h) (by decide)
  have hdigits := Decimal.toNat?_padded 8 index.toNat
  unfold word?
  split
  · rename_i ds heq
    exact absurd (heq ▸ List.mem_cons_self ..) hplus
  · simp [hdigits, index.toNat_lt]

theorem index?_ofIndex (name : String) (index : UInt32) :
    index? name (ofIndex name index) = some index := by
  have hlist : (ofIndex name index).toList =
      (name.toList ++ ['_']) ++ (Decimal.padded 8 index.toNat ++ extension) := by
    simp [toList_ofIndex, ending]
  simp only [index?, hlist, isPrefixOf?_append, isSuffixOf?_append, bind, Option.bind,
    word?_padded]

theorem ofIndex_inj {name : String} {i j : UInt32} (h : ofIndex name i = ofIndex name j) : i = j := by
  have hi := index?_ofIndex name i
  rw [h, index?_ofIndex] at hi
  exact (Option.some.inj hi).symm

theorem underscore_not_mem_word {cs : List Char} {n : UInt32} (h : word? cs = some n) :
    '_' ∉ cs := by
  unfold word? at h
  obtain ⟨m, hm, -⟩ := Option.bind_eq_some_iff.mp h
  intro hc
  split at hm
  · rcases List.mem_cons.mp hc with he | hc
    · exact absurd he (by decide)
    · exact absurd (Decimal.isDigit_of_toNat? hm hc) (by decide)
  · exact absurd (Decimal.isDigit_of_toNat? hm hc) (by decide)

/-- A file name that spells an index goes on after its last underscore with what spells it. -/
theorem split_of_index? {name file : String} {index : UInt32} (h : index? name file = some index) :
    ∃ rest, '_' ∉ rest ∧ file.toList = name.toList ++ '_' :: rest := by
  obtain ⟨behind, hbehind, h⟩ := Option.bind_eq_some_iff.mp h
  obtain ⟨word, hword, h⟩ := Option.bind_eq_some_iff.mp h
  refine ⟨word ++ extension, fun hm => ?_, ?_⟩
  · rcases List.mem_append.mp hm with hm | hm
    · exact underscore_not_mem_word h hm
    · exact absurd hm (by decide)
  · rw [append_of_isPrefixOf? hbehind, append_of_isSuffixOf? hword, List.append_assoc]
    rfl

/-- No file name spells indices of two archives, also if the name of one begins that of the other. -/
theorem name_of_index? {name other file : String} {i j : UInt32} (hi : index? name file = some i)
    (hj : index? other file = some j) : name = other := by
  obtain ⟨rest, hrest, hfile⟩ := split_of_index? hi
  obtain ⟨rest', hrest', hfile'⟩ := split_of_index? hj
  rw [hfile] at hfile'
  -- the longer of the two names would have the other's underscore behind its own
  rcases List.append_eq_append_iff.mp hfile' with ⟨cs, hname, hcs⟩ | ⟨cs, hname, hcs⟩
  · cases cs with
    | nil => exact String.ext (by simpa using hname.symm)
    | cons c cs =>
        obtain ⟨-, he⟩ := List.cons.inj hcs
        exact absurd (he ▸ List.mem_append_right cs (List.mem_cons_self ..)) hrest
  · cases cs with
    | nil => exact String.ext (by simpa using hname)
    | cons c cs =>
        obtain ⟨-, he⟩ := List.cons.inj hcs
        exact absurd (he ▸ List.mem_append_right cs (List.mem_cons_self ..)) hrest'

/-- The name of an archive one of whose files has been recognised is plain. -/
theorem plain_of_index? {name file : String} {index : UInt32} (h : index? name file = some index)
    (hf : Plain file) : Plain name := by
  obtain ⟨rest, hrest, -⟩ := Option.bind_eq_some_iff.mp h
  intro hm
  exact hf (by rw [append_of_isPrefixOf? hrest]; simp [hm])

theorem plain_ofIndex {name : String} (h : Plain name) (index : UInt32) :
    Plain (ofIndex name index) := by
  rw [Plain, toList_ofIndex]
  intro hm
  rcases List.mem_append.mp hm with hm | hm
  · exact h hm
  · exact slash_not_mem_ending index hm

theorem ofText_ofIndex (name : String) (index : UInt32) :
    ∃ outer last, Plain last ∧ ending index <:+ last.toList ∧
      Path.ofText (ofIndex name index) = outer ++ [last] := by
  obtain ⟨outer, base, hbase, hp⟩ :=
    Text.pieces_append name.toList (slash_not_mem_ending index)
  refine ⟨outer.map String.ofList, String.ofList (base ++ ending index), ?_, ?_, ?_⟩
  · rw [Plain, String.toList_ofList]
    intro hm
    rcases List.mem_append.mp hm with hm | hm
    · exact hbase hm
    · exact slash_not_mem_ending index hm
  · rw [String.toList_ofList]
    exact List.suffix_append ..
  · rw [Path.ofText, toList_ofIndex, hp, List.map_append]
    rfl

theorem ofText_of_plain {text : String} (h : Plain text) : Path.ofText text = [text] := by
  rw [Path.ofText, Text.pieces_of_not_mem h, List.map_singleton, String.ofList_toList]

end SegmentName

end MeteredStorage
