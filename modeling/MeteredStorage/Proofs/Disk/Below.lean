import MeteredStorage.Proofs.Disk.Change

namespace MeteredStorage.Disk

variable {d : Disk} {path : Path} {n : Nat}

theorem walk_append (d : Disk) (trail : Trail) (ps qs : List String) :
    d.walk trail (ps ++ qs) = (d.walk trail ps).bind fun reached => d.walk reached qs := by
  induction ps generalizing trail with
  | nil => rfl
  | cons p ps ih =>
      rw [List.cons_append, walk, walk]
      split
      · exact ih trail
      · split
        · exact ih trail.tail
        · split
          · rfl
          · rfl
          · rfl
          · rename_i number _
            exact ih (number :: trail)

theorem walk_blank (trail : Trail) {ps : List String} (h : ∀ p ∈ ps, p = "") :
    d.walk trail ps = .ok trail := by
  induction ps with
  | nil => rfl
  | cons p ps ih =>
      rw [h p (List.mem_cons_self ..), walk, if_pos (by decide)]
      exact ih fun q hq => h q (List.mem_cons_of_mem _ hq)

theorem walk_unclosed (d : Disk) (path : Path) :
    d.walk [] (Path.unclosed path) = d.walk [] path := by
  unfold Path.unclosed
  split
  · rename_i h
    obtain ⟨front, rfl⟩ := List.getLast?_eq_some_iff.mp h
    rw [List.dropLast_concat, walk_append]
    cases d.walk [] front with
    | error e => rfl
    | ok trail => rw [Except.bind, walk_blank trail (by simp)]
  · rfl

theorem walk_of_find (h : d.find path = .ok (some (.directory n))) :
    ∃ trail, d.walk [] (Path.unclosed path) = .ok trail ∧ Trail.number trail = n := by
  rw [walk_unclosed]
  cases ht : d.target path with
  | error e => simp [find, ht, bind, Except.bind] at h
  | ok t =>
      have hsplit : path = (path.reverse.dropWhile (· = "")).reverse ++
          (path.reverse.takeWhile (· = "")).reverse := by
        rw [← List.reverse_append, List.takeWhile_append_dropWhile, List.reverse_reverse]
      have hblank : ∀ p ∈ (path.reverse.takeWhile (· = "")).reverse, p = "" := by
        intro p hp
        simpa using List.all_eq_true.mp List.all_takeWhile p (List.mem_reverse.mp hp)
      obtain ⟨-, ⟨hd, rfl⟩ | ⟨last, outer, trail, hd, hw, rfl⟩⟩ := target_eq_ok ht
      · rw [find_here ht] at h
        rw [hsplit, hd, List.reverse_nil, List.nil_append]
        exact ⟨[], walk_blank _ hblank, by simpa using h⟩
      · have hlast : d.walk [] path = d.walk trail [last] := by
          rw [hsplit, hd, List.reverse_cons, walk_append, walk_append, hw]
          change (d.walk trail [last]).bind _ = _
          cases d.walk trail [last] with
          | error e => rfl
          | ok reached => exact walk_blank reached hblank
        rw [hlast, walk]
        have hne : last ≠ "" := by
          intro he
          have hnot := List.head?_dropWhile_not (· = "") path.reverse
          rw [hd] at hnot
          simp [he] at hnot
        split at ht
        · rename_i hdot
          rw [find_here ht] at h
          rw [if_pos (by simp [Path.stays, hdot])]
          exact ⟨trail, rfl, by simpa using h⟩
        · rename_i hdot
          have hstays : ¬ Path.stays last := by simp [Path.stays, hne, hdot]
          rw [if_neg hstays]
          split at ht
          · rename_i hup
            rw [find_here ht] at h
            rw [if_pos hup]
            exact ⟨trail.tail, rfl, by simpa using h⟩
          · rename_i hup
            rw [if_neg hup]
            rw [find_name ht] at h
            rcases hm : d.meaning trail last with e | node
            · simp [hm] at h
            · rcases node with _ | m | slot
              · simp [hm] at h
              · simp only [hm, Except.ok.injEq, Option.some.injEq, Node.directory.injEq] at h
                exact ⟨m :: trail, rfl, h⟩
              · simp only [hm] at h
                split at h <;> cases h

theorem target_concat {outer : Path} {last : String} {t : Target} (hempty : last ≠ "")
    (hdot : last ≠ ".") (hup : last ≠ "..") (ht : d.target (outer ++ [last]) = .ok t) :
    ∃ trail, d.walk [] outer = .ok trail ∧ t = .name trail last false := by
  obtain ⟨-, ⟨hd, -⟩ | ⟨piece, rest, trail, hd, hw, rfl⟩⟩ := target_eq_ok ht
  · simp [hempty] at hd
  · have hrev : last :: outer.reverse = piece :: rest := by simpa [hempty] using hd
    cases hrev
    rw [List.reverse_reverse] at hw
    exact ⟨trail, hw, by simp [hdot, hup, hempty]⟩

theorem Sound.find_lt (hd : Sound d) (h : d.find path = .ok (some (.directory n))) :
    n < d.directories.size := by
  obtain ⟨trail, hw, rfl⟩ := walk_of_find h
  exact hd.number_of_trail (hd.walk_lt (by simp) hw)

end MeteredStorage.Disk
