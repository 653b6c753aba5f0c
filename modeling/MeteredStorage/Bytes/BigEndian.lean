import MeteredStorage.Bytes.Basic

namespace MeteredStorage.BigEndian

def span : Nat → Nat
  | 0 => 1
  | width + 1 => 256 * span width

theorem span_pos (width : Nat) : 0 < span width := by
  induction width with
  | zero => exact Nat.one_pos
  | succ width ih => exact Nat.mul_pos (by decide) ih

def encode : Nat → Nat → Bytes
  | 0, _ => []
  | width + 1, n => UInt8.ofNat (n / span width) :: encode width n

def decode (bs : Bytes) : Nat := bs.foldl (fun n b => n * 256 + b.toNat) 0

@[simp] theorem length_encode (width n : Nat) : (encode width n).length = width := by
  induction width with
  | zero => rfl
  | succ width ih => simp [encode, ih]

theorem foldl_eq (bs : Bytes) (n : Nat) :
    bs.foldl (fun n b => n * 256 + b.toNat) n = n * span bs.length + decode bs := by
  induction bs generalizing n with
  | nil => simp [decode, span]
  | cons b bs ih =>
    rw [decode, List.foldl_cons, List.foldl_cons, ih, ih, List.length_cons, span]
    grind

theorem decode_cons (b : UInt8) (bs : Bytes) :
    decode (b :: bs) = b.toNat * span bs.length + decode bs := by
  rw [decode, List.foldl_cons, foldl_eq]
  simp

theorem decode_lt (bs : Bytes) : decode bs < span bs.length := by
  induction bs with
  | nil => simp [decode, span]
  | cons b bs ih =>
    have hb : b.toNat + 1 ≤ 256 := b.toNat_lt
    have := Nat.mul_le_mul_right (span bs.length) hb
    rw [decode_cons, List.length_cons, span]
    grind

theorem decode_encode_mod (width n : Nat) : decode (encode width n) = n % span width := by
  induction width with
  | zero => simp [encode, decode, span, Nat.mod_one]
  | succ width ih =>
    rw [encode, decode_cons, length_encode, ih, UInt8.toNat_ofNat', span, Nat.mul_comm 256,
      Nat.mod_mul, Nat.add_comm, Nat.mul_comm]

theorem decode_encode {width n : Nat} (h : n < span width) : decode (encode width n) = n := by
  rw [decode_encode_mod, Nat.mod_eq_of_lt h]

theorem encode_add_mul (width n k : Nat) : encode width (k * span width + n) = encode width n := by
  induction width generalizing k with
  | zero => rfl
  | succ width ih =>
    have hk : k * span (width + 1) + n = k * 256 * span width + n := by
      rw [span, Nat.mul_assoc]
    rw [encode, encode, hk, ih, Nat.add_comm, Nat.add_mul_div_right _ _ (span_pos width)]
    congr 1
    apply UInt8.toNat_inj.mp
    simp only [UInt8.toNat_ofNat']
    omega

theorem encode_decode (bs : Bytes) : encode bs.length (decode bs) = bs := by
  induction bs with
  | nil => rfl
  | cons b bs ih =>
    rw [List.length_cons, encode, decode_cons, encode_add_mul, ih, Nat.add_comm,
      Nat.add_mul_div_right _ _ (span_pos _), Nat.div_eq_of_lt (decode_lt bs), Nat.zero_add,
      UInt8.ofNat_toNat]

def ofWord32 (w : UInt32) : Bytes := encode 4 w.toNat
def ofWord64 (w : UInt64) : Bytes := encode 8 w.toNat
def ofInt32 (i : Int32) : Bytes := ofWord32 i.toUInt32
def ofInt64 (i : Int64) : Bytes := ofWord64 i.toUInt64

def toWord32 (bs : Bytes) : UInt32 := UInt32.ofNat (decode bs)
def toWord64 (bs : Bytes) : UInt64 := UInt64.ofNat (decode bs)
def toInt32 (bs : Bytes) : Int32 := (toWord32 bs).toInt32
def toInt64 (bs : Bytes) : Int64 := (toWord64 bs).toInt64

@[simp] theorem length_ofWord32 (w : UInt32) : (ofWord32 w).length = 4 := length_encode _ _
@[simp] theorem length_ofWord64 (w : UInt64) : (ofWord64 w).length = 8 := length_encode _ _
@[simp] theorem length_ofInt32 (i : Int32) : (ofInt32 i).length = 4 := length_encode _ _
@[simp] theorem length_ofInt64 (i : Int64) : (ofInt64 i).length = 8 := length_encode _ _

@[simp] theorem toWord32_ofWord32 (w : UInt32) : toWord32 (ofWord32 w) = w := by
  rw [toWord32, ofWord32, decode_encode w.toNat_lt, UInt32.ofNat_toNat]

@[simp] theorem toWord64_ofWord64 (w : UInt64) : toWord64 (ofWord64 w) = w := by
  rw [toWord64, ofWord64, decode_encode w.toNat_lt, UInt64.ofNat_toNat]

@[simp] theorem toInt32_ofInt32 (i : Int32) : toInt32 (ofInt32 i) = i := by
  rw [toInt32, ofInt32, toWord32_ofWord32, Int32.toInt32_toUInt32]

@[simp] theorem toInt64_ofInt64 (i : Int64) : toInt64 (ofInt64 i) = i := by
  rw [toInt64, ofInt64, toWord64_ofWord64, Int64.toInt64_toUInt64]

theorem ofWord32_toWord32 {bs : Bytes} (h : bs.length = 4) : ofWord32 (toWord32 bs) = bs := by
  have hlt := decode_lt bs
  have he := encode_decode bs
  rw [h] at hlt he
  rw [ofWord32, toWord32, UInt32.toNat_ofNat_of_lt' hlt, he]

theorem ofWord64_toWord64 {bs : Bytes} (h : bs.length = 8) : ofWord64 (toWord64 bs) = bs := by
  have hlt := decode_lt bs
  have he := encode_decode bs
  rw [h] at hlt he
  rw [ofWord64, toWord64, UInt64.toNat_ofNat_of_lt' hlt, he]

theorem ofInt64_toInt64 {bs : Bytes} (h : bs.length = 8) : ofInt64 (toInt64 bs) = bs := by
  rw [ofInt64, toInt64, UInt64.toUInt64_toInt64, ofWord64_toWord64 h]

end MeteredStorage.BigEndian
