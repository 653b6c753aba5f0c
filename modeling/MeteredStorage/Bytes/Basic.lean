
namespace MeteredStorage

abbrev Bytes := List UInt8

namespace Bytes

def zeros (n : Nat) : Bytes := List.replicate n 0

def slice (offset n : Nat) (bs : Bytes) : Bytes := (bs.drop offset).take n

/-- Writes `new` over `bs` from `offset` on; a gap before `offset` is filled with zeros. -/
def overlay (offset : Nat) (new bs : Bytes) : Bytes :=
  bs.take offset ++ (zeros (offset - bs.length) ++ (new ++ bs.drop (offset + new.length)))

def resize (n : Nat) (bs : Bytes) : Bytes := bs.take n ++ zeros (n - bs.length)

def split? (n : Nat) (bs : Bytes) : Option (Bytes × Bytes) :=
  let first := bs.take n
  if first.length = n then some (first, bs.drop n) else none

theorem length_zeros (n : Nat) : (zeros n).length = n := List.length_replicate

theorem length_resize (n : Nat) (bs : Bytes) : (resize n bs).length = n := by
  simp only [resize, List.length_append, List.length_take, length_zeros]
  omega

theorem length_overlay (offset : Nat) (new bs : Bytes) :
    (overlay offset new bs).length = max bs.length (offset + new.length) := by
  simp only [overlay, List.length_append, List.length_take, List.length_drop, length_zeros]
  omega

theorem length_overlay_of_le {offset : Nat} {new bs : Bytes}
    (h : offset + new.length ≤ bs.length) : (overlay offset new bs).length = bs.length := by
  rw [length_overlay]
  omega

theorem overlay_length (new bs : Bytes) : overlay bs.length new bs = bs ++ new := by
  simp [overlay, zeros, List.drop_eq_nil_of_le]

theorem slice_append_slice (offset n m : Nat) (bs : Bytes) :
    slice offset n bs ++ slice (offset + n) m bs = slice offset (n + m) bs := by
  rw [slice, slice, slice, List.take_add, List.drop_drop]

theorem split?_eq_some_iff {n : Nat} {bs first rest : Bytes} :
    split? n bs = some (first, rest) ↔ first.length = n ∧ bs = first ++ rest := by
  unfold split?
  constructor
  · intro h
    simp only at h
    split at h
    · rename_i hl
      cases h
      exact ⟨hl, (List.take_append_drop n bs).symm⟩
    · cases h
  · rintro ⟨hl, rfl⟩
    subst hl
    simp

def hexDigit (n : Nat) : Char :=
  if n < 10 then Char.ofNat (48 + n) else Char.ofNat (87 + n)

def hex (bs : Bytes) : String :=
  String.ofList (bs.flatMap fun b => [hexDigit (b.toNat / 16), hexDigit (b.toNat % 16)])

end Bytes

end MeteredStorage
