import MeteredStorage.Segment.Record

namespace MeteredStorage

theorem cases_of_pairwise {α : Type} {R : α → α → Prop} {l : List α} (h : l.Pairwise R) {a b : α}
    (ha : a ∈ l) (hb : b ∈ l) : a = b ∨ R a b ∨ R b a := by
  have hall : ∀ x ∈ l, ∀ y ∈ l, x = y ∨ R x y ∨ R y x := fun x hx y hy =>
    List.Pairwise.forall_of_forall_of_flip (R := fun x y => x = y ∨ R x y ∨ R y x)
      (fun _ _ => .inl rfl) (h.imp fun hr => .inr (.inl hr)) (h.imp fun hr => .inr (.inr hr)) hx hy
  exact hall a ha b hb

namespace Record

open BigEndian

def Fits (r : Record) : Prop := r.data.length < 0x100000000

def encodeAll (rs : List Record) : Bytes := rs.flatMap encode

def sizeAll : List Record → Nat
  | [] => 0
  | r :: rs => r.size + sizeAll rs

def place : Nat → List Record → List PlacedRecord
  | _, [] => []
  | offset, r :: rs => ⟨r, offset⟩ :: place (offset + r.size) rs

theorem length_encodeAll (rs : List Record) : (encodeAll rs).length = sizeAll rs := by
  induction rs with
  | nil => rfl
  | cons r rs ih =>
      rw [encodeAll, List.flatMap_cons, List.length_append, length_encode, sizeAll]
      exact congrArg (r.size + ·) ih

theorem encodeAll_append (rs ss : List Record) :
    encodeAll (rs ++ ss) = encodeAll rs ++ encodeAll ss := List.flatMap_append

theorem sizeAll_append (rs ss : List Record) : sizeAll (rs ++ ss) = sizeAll rs + sizeAll ss := by
  induction rs with
  | nil => simp [sizeAll]
  | cons r rs ih => simp only [List.cons_append, sizeAll, ih, Nat.add_assoc]

theorem size_pos (r : Record) : 0 < r.size := by
  simp only [size, headerSize]
  omega

theorem place_append (offset : Nat) (rs ss : List Record) :
    place offset (rs ++ ss) = place offset rs ++ place (offset + sizeAll rs) ss := by
  induction rs generalizing offset with
  | nil => simp [place, sizeAll]
  | cons r rs ih => simp only [List.cons_append, place, sizeAll, ih, Nat.add_assoc]

theorem map_place (offset : Nat) (rs : List Record) :
    (place offset rs).map PlacedRecord.record = rs := by
  induction rs generalizing offset with
  | nil => rfl
  | cons r rs ih => simp only [place, List.map_cons, ih]

theorem mem_place {offset : Nat} {rs : List Record} {p : PlacedRecord} (h : p ∈ place offset rs) :
    ∃ before after, rs = before ++ p.record :: after ∧ p.offset = offset + sizeAll before := by
  induction rs generalizing offset with
  | nil => cases h
  | cons r rs ih =>
      rcases List.mem_cons.mp h with rfl | h
      · exact ⟨[], rs, rfl, rfl⟩
      · obtain ⟨before, after, rfl, ho⟩ := ih h
        exact ⟨r :: before, after, rfl, by rw [ho, sizeAll, Nat.add_assoc]⟩

theorem mem_place_bounds {offset : Nat} {rs : List Record} {p : PlacedRecord}
    (h : p ∈ place offset rs) :
    offset ≤ p.offset ∧ p.offset + p.record.size ≤ offset + sizeAll rs := by
  obtain ⟨before, after, rfl, ho⟩ := mem_place h
  rw [ho, sizeAll_append, sizeAll]
  omega

theorem place_offsets_lt (offset : Nat) (rs : List Record) :
    (place offset rs).Pairwise (fun p q => p.offset < q.offset) := by
  induction rs generalizing offset with
  | nil => exact List.Pairwise.nil
  | cons r rs ih =>
      refine List.Pairwise.cons (fun p hp => ?_) (ih _)
      have := (mem_place_bounds hp).1
      have := r.size_pos
      simp only
      omega

theorem ofHeader_header (r : Record) (h : r.Fits) :
    ofHeader (ofInt64 r.key ++ ofWord32 (UInt32.ofNat r.data.length)) = (r.key, r.data.length) := by
  have ht : (ofInt64 r.key ++ ofWord32 (UInt32.ofNat r.data.length)).take 8 = ofInt64 r.key :=
    List.take_left' (length_ofInt64 _)
  have hd : (ofInt64 r.key ++ ofWord32 (UInt32.ofNat r.data.length)).drop 8 =
      ofWord32 (UInt32.ofNat r.data.length) := List.drop_left' (length_ofInt64 _)
  rw [ofHeader, ht, hd, toInt64_ofInt64, toWord32_ofWord32, UInt32.toNat_ofNat_of_lt' h]

theorem split_header (r : Record) (rest : Bytes) :
    Bytes.split? headerSize (r.encode ++ rest) =
      some (ofInt64 r.key ++ ofWord32 (UInt32.ofNat r.data.length), r.data ++ rest) := by
  rw [Bytes.split?_eq_some_iff]
  exact ⟨by simp [headerSize], by simp [encode]⟩

theorem split_data (r : Record) (rest : Bytes) :
    Bytes.split? r.data.length (r.data ++ rest) = some (r.data, rest) := by
  rw [Bytes.split?_eq_some_iff]
  exact ⟨rfl, rfl⟩

theorem read?_encode (r : Record) (h : r.Fits) (rest : Bytes) :
    read? (r.encode ++ rest) = some (r, rest) := by
  simp only [read?, split_header, ofHeader_header r h, bind, Option.bind, split_data, pure]

theorem scan_encodeAll (rs : List Record) (h : ∀ r ∈ rs, r.Fits) (offset : Nat) (rest : Bytes) :
    scan rs.length offset (encodeAll rs ++ rest) = (place offset rs, none) := by
  induction rs generalizing offset with
  | nil => rfl
  | cons r rs ih =>
      have hr : encodeAll (r :: rs) ++ rest = r.encode ++ (encodeAll rs ++ rest) := by
        simp [encodeAll]
      rw [hr, List.length_cons, scan, read?_encode r (h r (List.mem_cons_self ..)), place]
      simp only [ih (fun s hs => h s (List.mem_cons_of_mem _ hs))]

theorem read?_eq_some {bs rest : Bytes} {r : Record} (h : read? bs = some (r, rest)) :
    ∃ header, header.length = headerSize ∧ bs = header ++ (r.data ++ rest) ∧
      ofHeader header = (r.key, r.data.length) := by
  simp only [read?, bind, Option.bind, pure] at h
  split at h
  · cases h
  · rename_i split hheader
    obtain ⟨header, behind⟩ := split
    obtain ⟨hlength, rfl⟩ := Bytes.split?_eq_some_iff.mp hheader
    simp only at h
    split at h
    · cases h
    · rename_i split hdata
      obtain ⟨data, after⟩ := split
      obtain ⟨hsize, rfl⟩ := Bytes.split?_eq_some_iff.mp hdata
      cases h
      exact ⟨header, hlength, rfl, Prod.ext rfl hsize.symm⟩

/-- A record of a scan, also of bytes that encode nothing, is read at its offset. -/
theorem mem_scan {n offset : Nat} {bs : Bytes} {p : PlacedRecord}
    (h : p ∈ (scan n offset bs).1) :
    ∃ k rest, p.offset = offset + k ∧ read? (bs.drop k) = some (p.record, rest) := by
  induction n generalizing offset bs with
  | zero => cases h
  | succ n ih =>
      rw [scan] at h
      split at h
      · cases h
      · rename_i r rest hread
        rcases List.mem_cons.mp h with rfl | h
        · exact ⟨0, rest, rfl, by rw [List.drop_zero, hread]⟩
        · obtain ⟨k, after, ho, hr⟩ := ih h
          obtain ⟨header, hlength, rfl, -⟩ := read?_eq_some hread
          refine ⟨r.size + k, after, by rw [ho, Nat.add_assoc], ?_⟩
          rw [← hr, ← List.append_assoc, ← List.drop_drop,
            List.drop_left' (by rw [List.length_append, hlength, size])]

end Record

end MeteredStorage
