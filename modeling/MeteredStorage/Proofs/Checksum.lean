import MeteredStorage.Bytes.Checksum
import MeteredStorage.Proofs.Bytes

namespace MeteredStorage.Checksum

theorem toNat_shift (r : UInt32) :
    (shift r).toNat = r.toNat / 2 ^^^ if r.toNat % 2 = 1 then 0xEDB88320 else 0 := by
  have hlow : r &&& 1 = 1 ↔ r.toNat % 2 = 1 := by
    rw [← UInt32.toNat_inj, UInt32.toNat_and, UInt32.toNat_one, Nat.and_one_is_mod]
  have hhalf : (r >>> 1).toNat = r.toNat / 2 := UInt32.toNat_shiftRight r 1
  rw [shift]
  by_cases h : r.toNat % 2 = 1
  · rw [if_pos (hlow.mpr h), if_pos h, UInt32.toNat_xor, hhalf]
    rfl
  · rw [if_neg (mt hlow.mp h), if_neg h, hhalf, Nat.xor_zero]

theorem shift_xor (r s : UInt32) : shift (r ^^^ s) = shift r ^^^ shift s := by
  apply UInt32.toNat_inj.mp
  rw [UInt32.toNat_xor, toNat_shift, toNat_shift, toNat_shift, UInt32.toNat_xor, Nat.xor_div_two]
  -- The polynomial comes in with a low bit that is set; two such bits cancel, and so does it.
  by_cases hr : r.toNat % 2 = 1 <;> by_cases hs : s.toNat % 2 = 1 <;>
    simp only [Nat.xor_mod_two_eq_one, hr, hs, not_true_eq_false, not_false_eq_true, iff_self,
      iff_true, iff_false, if_true, if_false, Nat.xor_zero]
  · rw [Nat.xor_comm (s.toNat / 2) 0xEDB88320, Nat.xor_assoc, ← Nat.xor_assoc 0xEDB88320, Nat.xor_self,
      Nat.zero_xor]
  · ac_rfl
  · ac_rfl

theorem toNat_of_shift_lt {r : UInt32} (h : (shift r).toNat < 0x80000000) :
    r.toNat = 2 * (shift r).toNat := by
  have hr := r.toNat_lt
  by_cases hodd : r.toNat % 2 = 1
  · have hclear : (r.toNat / 2).testBit 31 = false := Nat.testBit_lt_two_pow (by omega)
    have htop : (shift r).toNat.testBit 31 = true := by
      rw [toNat_shift, if_pos hodd, Nat.testBit_xor, hclear]
      decide
    have := Nat.ge_two_pow_of_testBit htop
    omega
  · rw [toNat_shift, if_neg hodd, Nat.xor_zero]
    omega

theorem repeat_shift_xor (n : Nat) (r s : UInt32) :
    Nat.repeat shift n (r ^^^ s) = Nat.repeat shift n r ^^^ Nat.repeat shift n s := by
  induction n with
  | zero => rfl
  | succ n ih => rw [Nat.repeat, Nat.repeat, Nat.repeat, ih, shift_xor]

/-- A register whose top `n` bits are clear after `n` steps has only been shifted. -/
theorem toNat_of_repeat_shift_lt {n k : Nat} {r : UInt32} (hk : k + n ≤ 32)
    (h : (Nat.repeat shift n r).toNat < 1 <<< k) :
    r.toNat = (Nat.repeat shift n r).toNat <<< n := by
  induction n generalizing k with
  | zero => rfl
  | succ n ih =>
    rw [Nat.repeat] at h ⊢
    have htop : 1 <<< k ≤ 0x80000000 := by
      rw [Nat.one_shiftLeft]
      exact Nat.pow_le_pow_right (by decide) (by omega : k ≤ 31)
    have hstep := toNat_of_shift_lt (Nat.lt_of_lt_of_le h htop)
    have hlt : (Nat.repeat shift n r).toNat < 1 <<< (k + 1) := by
      rw [Nat.shiftLeft_succ]
      omega
    rw [ih (by omega) hlt, hstep, Nat.shiftLeft_succ_inside]

/--
If two registers differ in low bits only after a byte each, then registers and bytes differed by the
same before, eight bits higher.
-/
theorem toNat_xor_of_addByte_lt {k : Nat} {r s : UInt32} {b c : UInt8} (hk : k + 8 ≤ 32)
    (h : (addByte r b ^^^ addByte s c).toNat < 1 <<< k) :
    (r ^^^ s ^^^ (b ^^^ c).toUInt32).toNat = (addByte r b ^^^ addByte s c).toNat <<< 8 := by
  have hxor : addByte r b ^^^ addByte s c = Nat.repeat shift 8 (r ^^^ s ^^^ (b ^^^ c).toUInt32) := by
    rw [addByte, addByte, ← repeat_shift_xor, UInt8.toUInt32_xor]
    congr 1
    ac_rfl
  rw [hxor] at h ⊢
  exact toNat_of_repeat_shift_lt hk h

theorem addByte_left_inj {r s : UInt32} {b : UInt8} : addByte r b = addByte s b ↔ r = s := by
  constructor
  · intro h
    have hafter : addByte r b ^^^ addByte s b = 0 := UInt32.xor_eq_zero_iff.mpr h
    have hbefore := toNat_xor_of_addByte_lt (k := 0) (r := r) (s := s) (b := b) (c := b) (by decide)
      (by rw [hafter]; decide)
    rw [hafter, UInt8.xor_self] at hbefore
    have hsame : r ^^^ s ^^^ 0 = 0 := UInt32.toNat_inj.mp hbefore
    rwa [UInt32.xor_zero, UInt32.xor_eq_zero_iff] at hsame
  · rintro rfl
    rfl

theorem foldl_addByte_left_inj {r s : UInt32} (bs : Bytes) :
    bs.foldl addByte r = bs.foldl addByte s ↔ r = s := by
  induction bs generalizing r s with
  | nil => rfl
  | cons b bs ih => rw [List.foldl_cons, List.foldl_cons, ih, addByte_left_inj]

/--
Two registers that become one on as many bytes, four at most, differ in no higher bits than these
bytes have: each byte moves a difference down by eight bits.
-/
theorem xor_lt_of_foldl_eq {r s : UInt32} {bs cs : Bytes} (hl : bs.length = cs.length)
    (hfour : bs.length ≤ 4) (h : bs.foldl addByte r = cs.foldl addByte s) :
    (r ^^^ s).toNat < 1 <<< (8 * bs.length) := by
  induction bs generalizing r s cs with
  | nil =>
    cases List.eq_nil_of_length_eq_zero hl.symm
    cases h
    simp
  | cons b bs ih =>
    obtain ⟨c, cs, rfl⟩ := List.exists_cons_of_length_eq_add_one hl.symm
    rw [List.length_cons] at hfour ⊢
    have hafter := ih (Nat.succ.inj hl) (by omega) h
    have hbefore := toNat_xor_of_addByte_lt (by omega) hafter
    have hall : (r ^^^ s ^^^ (b ^^^ c).toUInt32).toNat < 1 <<< (8 * bs.length) <<< 8 := by
      rw [hbefore, Nat.shiftLeft_eq, Nat.shiftLeft_eq _ 8]
      omega
    have hbytes : ((b ^^^ c).toUInt32).toNat < 1 <<< (8 * bs.length) <<< 8 := by
      have hone : 1 ≤ 1 <<< (8 * bs.length) := by
        rw [Nat.one_shiftLeft]
        exact Nat.one_le_two_pow
      have := (b ^^^ c).toNat_lt
      rw [UInt8.toNat_toUInt32, Nat.shiftLeft_eq]
      omega
    have hxor : r ^^^ s = r ^^^ s ^^^ (b ^^^ c).toUInt32 ^^^ (b ^^^ c).toUInt32 := by
      rw [UInt32.xor_assoc (r ^^^ s), UInt32.xor_self, UInt32.xor_zero]
    rw [← Nat.shiftLeft_add, Nat.one_shiftLeft] at hall hbytes
    rw [hxor, UInt32.toNat_xor, Nat.one_shiftLeft]
    exact Nat.xor_lt_two_pow hall hbytes

/-- No two strings of as many bytes, four at most, take a register to the same. -/
theorem foldl_addByte_inj {r : UInt32} {bs cs : Bytes} (hl : bs.length = cs.length)
    (hfour : bs.length ≤ 4) : bs.foldl addByte r = cs.foldl addByte r ↔ bs = cs := by
  constructor
  · intro h
    induction bs generalizing r cs with
    | nil => exact (List.eq_nil_of_length_eq_zero hl.symm).symm
    | cons b bs ih =>
      obtain ⟨c, cs, rfl⟩ := List.exists_cons_of_length_eq_add_one hl.symm
      rw [List.length_cons] at hfour
      have hrest : bs.length = cs.length := Nat.succ.inj hl
      have hafter := xor_lt_of_foldl_eq hrest (by omega) h
      have hbefore := toNat_xor_of_addByte_lt (by omega) hafter
      -- Before the bytes, the difference is a multiple of 256, and bytes differ by less.
      have hlow := (b ^^^ c).toNat_lt
      rw [UInt32.xor_self, UInt32.zero_xor, UInt8.toNat_toUInt32, Nat.shiftLeft_eq] at hbefore
      have hzero : (b ^^^ c).toNat = 0 := by omega
      cases UInt8.xor_eq_zero_iff.mp (UInt8.toNat_inj.mp hzero)
      rw [ih hrest (by omega) h]
  · rintro rfl
    rfl

theorem crc32_window_inj (front back : Bytes) {bs cs : Bytes} (hl : bs.length = cs.length)
    (hfour : bs.length ≤ 4) :
    crc32 (front ++ (bs ++ back)) = crc32 (front ++ (cs ++ back)) ↔ bs = cs := by
  rw [crc32, crc32, UInt32.not_inj]
  simp only [List.foldl_append]
  rw [foldl_addByte_left_inj, foldl_addByte_inj hl hfour]

theorem crc32_overlay_ne {offset : Nat} {new bs : Bytes} (hin : offset + new.length ≤ bs.length)
    (hfour : new.length ≤ 4) (hne : Bytes.overlay offset new bs ≠ bs) :
    crc32 (Bytes.overlay offset new bs) ≠ crc32 bs := by
  have hlength := Bytes.length_slice_of_le hin
  have hold : Bytes.overlay offset (Bytes.slice offset new.length bs) bs = bs := Bytes.overlay_slice hin
  intro h
  have hcrc := h.trans (congrArg crc32 hold.symm)
  rw [Bytes.overlay_of_le hin, Bytes.overlay_of_le (hlength.symm ▸ hin), hlength,
    crc32_window_inj _ _ hlength.symm hfour] at hcrc
  apply hne
  rw [hcrc]
  exact hold

end MeteredStorage.Checksum
