
namespace MeteredStorage.Text

def pieces (separator : Char) : List Char → List (List Char)
  | [] => [[]]
  | c :: cs =>
    if c = separator then [] :: pieces separator cs
    else match pieces separator cs with
      | [] => [[c]]
      | piece :: rest => (c :: piece) :: rest

theorem pieces_ne_nil (separator : Char) (cs : List Char) : pieces separator cs ≠ [] := by
  cases cs with
  | nil => simp [pieces]
  | cons c cs =>
    simp only [pieces]
    split
    · simp
    · split <;> simp

theorem intercalate_pieces (separator : Char) (cs : List Char) :
    [separator].intercalate (pieces separator cs) = cs := by
  induction cs with
  | nil => rfl
  | cons c cs ih =>
    obtain ⟨piece, rest, h⟩ := List.exists_cons_of_ne_nil (pieces_ne_nil separator cs)
    rw [h] at ih
    by_cases hc : c = separator
    · simp [pieces, hc, h, ih]
    · cases rest <;> simp_all [pieces]

end MeteredStorage.Text
