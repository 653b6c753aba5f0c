import MeteredStorage.Bytes.Basic

namespace MeteredStorage.Bytes

variable {offset n stop : Nat} {new bs : Bytes}

def peek? (offset n : Nat) (bs : Bytes) : Option Bytes :=
  if offset + n ≤ bs.length then some (slice offset n bs) else none

def poke? (stop offset : Nat) (new bs : Bytes) : Option Bytes :=
  if offset + new.length ≤ stop ∧ stop ≤ bs.length then some (overlay offset new bs) else none

theorem peek?_eq_some (h : offset + n ≤ bs.length) : peek? offset n bs = some (slice offset n bs) :=
  if_pos h

theorem poke?_eq_some (hroom : offset + new.length ≤ stop) (hstop : stop ≤ bs.length) :
    poke? stop offset new bs = some (overlay offset new bs) := if_pos ⟨hroom, hstop⟩

theorem poke?_bind {α : Type} {g : Bytes → Option α} (hroom : offset + new.length ≤ stop)
    (hstop : stop ≤ bs.length) : (poke? stop offset new bs >>= g) = g (overlay offset new bs) := by
  rw [poke?_eq_some hroom hstop]
  rfl

theorem overlay_of_le (h : offset + new.length ≤ bs.length) :
    overlay offset new bs = bs.take offset ++ (new ++ bs.drop (offset + new.length)) := by
  have hgap : offset - bs.length = 0 := by omega
  rw [overlay, hgap]
  rfl

theorem length_slice_of_le (h : offset + n ≤ bs.length) : (slice offset n bs).length = n := by
  rw [slice, List.length_take, List.length_drop]
  omega

theorem overlay_slice (h : offset + n ≤ bs.length) : overlay offset (slice offset n bs) bs = bs := by
  have hlength := length_slice_of_le h
  rw [overlay_of_le (hlength.symm ▸ h), hlength, slice, ← List.drop_drop, List.take_append_drop,
    List.take_append_drop]

theorem overlay_inside {middle : Bytes} (h : offset + new.length ≤ middle.length) (front back : Bytes) :
    overlay (front.length + offset) new (front ++ (middle ++ back)) =
      front ++ (overlay offset new middle ++ back) := by
  have htake : (front ++ (middle ++ back)).take (front.length + offset) =
      front ++ middle.take offset := by
    rw [List.take_length_add_append, List.take_append_of_le_length (by omega)]
  have hdrop : (front ++ (middle ++ back)).drop (front.length + offset + new.length) =
      middle.drop (offset + new.length) ++ back := by
    rw [Nat.add_assoc, List.drop_length_add_append, List.drop_append_of_le_length h]
  have hwhole : front.length + offset + new.length ≤ (front ++ (middle ++ back)).length := by
    simp only [List.length_append]
    omega
  rw [overlay_of_le hwhole, overlay_of_le h, htake, hdrop]
  simp only [List.append_assoc]

theorem overlay_append (offset : Nat) (xs ys bs : Bytes) :
    overlay offset (xs ++ ys) bs = overlay (offset + xs.length) ys (overlay offset xs bs) := by
  obtain ⟨front, hdef⟩ : ∃ front, front = bs.take offset ++ (zeros (offset - bs.length) ++ xs) :=
    ⟨_, rfl⟩
  have hfront : front.length = offset + xs.length := by
    simp only [hdef, List.length_append, List.length_take, length_zeros]
    omega
  have hfirst : overlay offset xs bs = front ++ bs.drop front.length := by
    rw [hfront]
    simp only [overlay, hdef, List.append_assoc]
  have hgap : front.length - (front ++ bs.drop front.length).length = 0 := by
    rw [List.length_append]
    omega
  have hsecond : overlay front.length ys (front ++ bs.drop front.length) =
      front ++ (ys ++ bs.drop (front.length + ys.length)) := by
    rw [overlay, List.take_left' rfl, hgap, List.drop_length_add_append, List.drop_drop]
    rfl
  rw [hfirst, ← hfront, hsecond, hfront]
  simp only [overlay, hdef, List.length_append, List.append_assoc, Nat.add_assoc]

theorem getElem?_overlay (h : offset + new.length ≤ bs.length) (i : Nat) :
    (overlay offset new bs)[i]? =
      if offset ≤ i ∧ i < offset + new.length then new[i - offset]? else bs[i]? := by
  have hfront : (bs.take offset).length = offset := by
    rw [List.length_take]
    omega
  rw [overlay_of_le h]
  by_cases hlow : i < offset
  · rw [List.getElem?_append_left (by omega), List.getElem?_take_of_lt hlow, if_neg (by omega)]
  · rw [List.getElem?_append_right (by omega), hfront]
    by_cases hhigh : i < offset + new.length
    · rw [List.getElem?_append_left (by omega), if_pos (by omega)]
    · rw [List.getElem?_append_right (by omega), List.getElem?_drop, if_neg (by omega)]
      congr 1
      omega

theorem getElem?_overlay_outside (h : offset + new.length ≤ bs.length) {i : Nat}
    (hi : i < offset ∨ offset + new.length ≤ i) : (overlay offset new bs)[i]? = bs[i]? := by
  rw [getElem?_overlay h, if_neg (by omega)]

theorem overlay_comm {offset' : Nat} {new' : Bytes} (h : offset + new.length ≤ offset')
    (h' : offset' + new'.length ≤ bs.length) :
    overlay offset new (overlay offset' new' bs) = overlay offset' new' (overlay offset new bs) := by
  have hnew : offset + new.length ≤ bs.length := by omega
  have hlength := length_overlay_of_le hnew
  have hlength' := length_overlay_of_le h'
  have hafter : offset + new.length ≤ (overlay offset' new' bs).length := by omega
  have hafter' : offset' + new'.length ≤ (overlay offset new bs).length := by omega
  apply List.ext_getElem?
  intro i
  -- Before the second range only the first write can show, and from there on only the second one.
  by_cases hi : i < offset'
  · rw [getElem?_overlay hafter, getElem?_overlay_outside h' (.inl hi),
      getElem?_overlay_outside hafter' (.inl hi), getElem?_overlay hnew]
  · have hbehind : i < offset ∨ offset + new.length ≤ i := .inr (by omega)
    rw [getElem?_overlay_outside hafter hbehind, getElem?_overlay h', getElem?_overlay hafter',
      getElem?_overlay_outside hnew hbehind]

end MeteredStorage.Bytes
