import Mathlib.Data.Nat.Digits.Defs
import MeteredStorage.Proofs.Segment.Name

namespace MeteredStorage

namespace Decimal

theorem length_padded {width n : Nat} (hw : 0 < width) (h : n < 10 ^ width) :
    (padded width n).length = width := by
  rw [padded, List.length_leftpad]
  exact Nat.max_eq_left (Nat.toDigits_length 10 n width hw h)

end Decimal

theorem Text.utf8ByteSize_ofList {cs : List Char} (h : ∀ c ∈ cs, c.val ≤ 127) :
    (String.ofList cs).utf8ByteSize = cs.length := by
  induction cs with
  | nil => rfl
  | cons c cs ih =>
      have hsplit : String.ofList (c :: cs) = String.singleton c ++ String.ofList cs := by
        rw [String.singleton_eq_ofList, ← String.ofList_append]
        rfl
      rw [hsplit, String.utf8ByteSize_append, String.utf8ByteSize_singleton,
        Char.utf8Size_eq_one_iff.mpr (h c (List.mem_cons_self ..)),
        ih fun d hd => h d (List.mem_cons_of_mem _ hd), List.length_cons, Nat.add_comm]

namespace SegmentName

variable {name : String} {i j : UInt32}

theorem val_le_of_mem_ending {c : Char} (h : c ∈ ending i) : c.val ≤ 127 := by
  rcases List.mem_cons.mp h with rfl | h
  · decide
  · rcases List.mem_append.mp h with h | h
    · have hd := Decimal.isDigit_of_mem_padded h
      simp only [Char.isDigit, Bool.and_eq_true, decide_eq_true_eq] at hd
      exact UInt32.le_trans hd.2 (by decide)
    · have hall : extension.all (·.val ≤ 127) := by decide
      simpa using List.all_eq_true.mp hall c h

theorem utf8ByteSize_ofIndex (name : String) (h : i.toNat < 10 ^ 8) :
    (ofIndex name i).utf8ByteSize = name.utf8ByteSize + 13 := by
  have hlength : (ending i).length = 13 := by
    rw [ending, List.length_cons, List.length_append, Decimal.length_padded (by decide) h]
    rfl
  rw [← hlength, ← Text.utf8ByteSize_ofList fun c hc => val_le_of_mem_ending hc,
    ← String.utf8ByteSize_append]
  rfl

theorem contains_nul_ofIndex (name : String) (i : UInt32) :
    (ofIndex name i).toList.contains (Char.ofNat 0) = name.toList.contains (Char.ofNat 0) := by
  rw [toList_ofIndex]
  simp [not_mem_ending i (c := Char.ofNat 0) (by decide) (by decide) (by decide)]

end SegmentName

end MeteredStorage
