import MeteredStorage.Proofs.Admission.Forms

namespace MeteredStorage

namespace Instant

theorem ofParts_eq_ok {seconds : Int64} {nanos : UInt32} {t : Instant}
    (h : ofParts seconds nanos = .ok t) : t.seconds = seconds ∧ t.nanos = nanos := by
  rw [ofParts, ofParts?] at h
  split at h
  · rename_i heq
    cases h
    split at heq
    · cases heq
      exact ⟨rfl, rfl⟩
    · cases heq
  · cases h

end Instant

namespace Usage

open BigEndian

variable {bs form rest : Bytes} {u : Usage}

/-- The bytes of a form, cut where its fields meet. -/
theorem eq_fields (h : form.length = size) :
    form = Bytes.slice 0 8 form ++
      (Bytes.slice 8 1 form ++ (Bytes.slice 9 8 form ++ Bytes.slice 17 4 form)) := by
  have hwhole : Bytes.slice 0 21 form = form := by
    rw [Bytes.slice, List.drop_zero]
    exact List.take_of_length_le (Nat.le_of_eq h)
  rw [Bytes.slice_append_slice 9 8 4, Bytes.slice_append_slice 8 1 12, Bytes.slice_append_slice 0 8 13,
    hwhole]

theorem length_field (offset n : Nat) (h : form.length = size) (hin : offset + n ≤ size) :
    (Bytes.slice offset n form).length = n := by
  rw [Bytes.slice, List.length_take, List.length_drop]
  omega

theorem eq_encode_of_ofBytes (hlen : form.length = size) (h : ofBytes form = .ok u) :
    form = u.encode := by
  have hused := ofWord64_toWord64 (length_field 0 8 hlen (by decide))
  have hseconds := ofInt64_toInt64 (length_field 9 8 hlen (by decide))
  have hnanos := ofWord32_toWord32 (length_field 17 4 hlen (by decide))
  have hfields := eq_fields hlen
  rw [ofBytes] at h
  split at h
  · rename_i hflag
    split at h
    · rename_i hzero
      cases h
      rw [hzero.1] at hseconds
      rw [hzero.2] at hnanos
      rw [encode, hused, hseconds, hnanos, ← List.singleton_append, ← hflag]
      exact hfields
    · cases h
  · rename_i hflag
    cases ht : Instant.ofParts (toInt64 (Bytes.slice 9 8 form)) (toWord32 (Bytes.slice 17 4 form)) with
    | error reason =>
        rw [ht] at h
        cases h
    | ok t =>
        rw [ht] at h
        cases h
        obtain ⟨hs, hn⟩ := Instant.ofParts_eq_ok ht
        simp only [encode]
        rw [hs, hn, hused, hseconds, hnanos, ← List.singleton_append, ← hflag]
        exact hfields
  · cases h

theorem ofBytes_eq_ok_iff (hlen : form.length = size) : ofBytes form = .ok u ↔ form = u.encode :=
  ⟨eq_encode_of_ofBytes hlen, fun h => h ▸ u.ofBytes_encode⟩

theorem read_of_short (h : bs.length < size) : read bs = (.error (.invalidUsage .tooShort), bs) := by
  have hnone : Bytes.split? size bs = none := by
    rw [Bytes.split?, List.length_take]
    exact if_neg (by omega)
  rw [read, hnone]

theorem read_of_long (h : size ≤ bs.length) : read bs = (ofBytes (bs.take size), bs.drop size) := by
  have hsome : Bytes.split? size bs = some (bs.take size, bs.drop size) :=
    Bytes.split?_eq_some_iff.mpr ⟨List.length_take_of_le h, (List.take_append_drop ..).symm⟩
  rw [read, hsome]

theorem read_eq_ok_iff : read bs = (.ok u, rest) ↔ bs = u.encode ++ rest := by
  constructor
  · intro h
    rcases Nat.lt_or_ge bs.length size with hshort | hlong
    · rw [read_of_short hshort] at h
      cases h
    · rw [read_of_long hlong, Prod.mk.injEq, ofBytes_eq_ok_iff (List.length_take_of_le hlong)] at h
      rw [← h.1, ← h.2, List.take_append_drop]
  · rintro rfl
    exact u.read_encode rest

theorem decode_eq_ok_iff : decode bs = .ok u ↔ bs = u.encode := by
  constructor
  · intro h
    rw [decode] at h
    split at h
    · rename_i hread
      cases h
      rw [read_eq_ok_iff.mp hread, List.append_nil]
    · cases h
    · cases h
  · rintro rfl
    exact u.decode_encode

def readMany : Nat → Bytes → List (Except AdmissionError Usage) × Bytes
  | 0, bs => ([], bs)
  | n + 1, bs => ((read bs).1 :: (readMany n (read bs).2).1, (readMany n (read bs).2).2)

theorem readMany_eq_ok_iff (us : List Usage) :
    readMany us.length bs = (us.map .ok, rest) ↔ bs = us.flatMap encode ++ rest := by
  induction us generalizing bs with
  | nil => simp [readMany]
  | cons u us ih =>
      rw [List.length_cons, readMany, List.map_cons, Prod.mk.injEq, List.cons.injEq, List.flatMap_cons,
        List.append_assoc]
      constructor
      · rintro ⟨⟨hread, hreplies⟩, hleft⟩
        have hfirst : bs = u.encode ++ (read bs).2 := read_eq_ok_iff.mp (Prod.ext hread rfl)
        rw [← ih.mp (Prod.ext hreplies hleft)]
        exact hfirst
      · rintro rfl
        have hmany := ih.mpr rfl
        rw [read_encode, hmany]
        exact ⟨⟨rfl, rfl⟩, rfl⟩

/--
Bytes hold a usage exactly if they are its encoding, and any number of usages exactly if they start
with their encodings one after another. Reading anything else is refused: bytes too few for a form
are left as they are, those of a malformed form are consumed.
-/
theorem encode_canonical (bs : Bytes) :
    (∀ u : Usage, decode bs = .ok u ↔ bs = u.encode) ∧
      (∀ (us : List Usage) (rest : Bytes),
        readMany us.length bs = (us.map .ok, rest) ↔ bs = us.flatMap encode ++ rest) ∧
      ((∀ u : Usage, bs ≠ u.encode) → ∃ reason, decode bs = .error reason) ∧
      (bs.length < size → read bs = (.error (.invalidUsage .tooShort), bs)) ∧
      (size ≤ bs.length → (∀ (u : Usage) (rest : Bytes), bs ≠ u.encode ++ rest) →
        ∃ reason, read bs = (.error reason, bs.drop size)) := by
  refine ⟨fun u => decode_eq_ok_iff, fun us rest => readMany_eq_ok_iff us, fun hnone => ?_,
    read_of_short, fun hlong hnone => ?_⟩
  · cases hdecode : decode bs with
    | ok u => exact absurd (decode_eq_ok_iff.mp hdecode) (hnone u)
    | error reason => exact ⟨reason, rfl⟩
  · rw [read_of_long hlong]
    cases hform : ofBytes (bs.take size) with
    | error reason => exact ⟨reason, rfl⟩
    | ok u =>
        have hread : read bs = (.ok u, bs.drop size) := by rw [read_of_long hlong, hform]
        exact absurd (read_eq_ok_iff.mp hread) (hnone u _)

/-- A form with a flag of its own, and one byte more: 21 bytes are consumed, and nothing is read. -/
theorem encode_canonical_unknown_flag :
    let bs : Bytes := List.replicate 22 2
    (∀ u : Usage, bs ≠ u.encode) ∧ (∀ (u : Usage) (rest : Bytes), bs ≠ u.encode ++ rest) ∧
      size ≤ bs.length ∧ (∃ reason, decode bs = .error reason) ∧ ∃ reason, read bs = (.error reason, [2]) := by
  intro bs
  have hmalformed : ∀ (u : Usage) (rest : Bytes), bs ≠ u.encode ++ rest := fun u rest h => by
    have hread := read_eq_ok_iff.mpr h
    have hflag : (read bs).1 = .error (.invalidUsage .unknownFlag) := rfl
    rw [hread] at hflag
    cases hflag
  have hnone : ∀ u : Usage, bs ≠ u.encode := fun u h => hmalformed u [] (by rw [h, List.append_nil])
  obtain ⟨-, -, hdecode, -, hread⟩ := encode_canonical bs
  exact ⟨hnone, hmalformed, by decide, hdecode hnone, hread (by decide) hmalformed⟩

end Usage

end MeteredStorage
