import MeteredStorage.Proofs.Archive.Shelf

namespace MeteredStorage

namespace Archive

theorem filter_latestOfKeys (key : Int64) (rs : List PlacedRecord) :
    (latestOfKeys rs).filter (·.record.key == key) =
      (rs.filter (·.record.key == key)).getLast?.toList := by
  induction rs with
  | nil => rfl
  | cons r rs ih =>
      have hany : rs.any (·.record.key == r.record.key) = true ↔
          rs.filter (·.record.key == r.record.key) ≠ [] := by
        rw [List.any_eq_true, Ne, List.filter_eq_nil_iff]
        simp
      unfold latestOfKeys
      by_cases hk : r.record.key = key
      · subst hk
        rw [List.filter_cons_of_pos (by simp)]
        by_cases hlater : rs.any (·.record.key == r.record.key) = true
        · obtain ⟨t, ts, ht⟩ := List.exists_cons_of_ne_nil (hany.mp hlater)
          rw [if_pos hlater, ih, ht]
          rfl
        · have hnone : rs.filter (·.record.key == r.record.key) = [] := by
            simpa using mt hany.mpr hlater
          rw [if_neg hlater, List.filter_cons_of_pos (by simp), ih, hnone]
          rfl
      · rw [List.filter_cons_of_neg (by simpa using hk)]
        split
        · exact ih
        · rw [List.filter_cons_of_neg (by simpa using hk)]
          exact ih

theorem filter_survivors (minKey maxKey : Int64) (seen : List Int64) (rs : List PlacedRecord)
    (key : Int64) :
    (survivors minKey maxKey seen rs).filter (·.record.key == key) =
      if minKey ≤ key ∧ key ≤ maxKey ∧ key ∉ seen then
        (rs.filter (·.record.key == key)).getLast?.toList
      else [] := by
  rw [survivors, filter_latestOfKeys, List.filter_filter]
  split
  · rename_i hkey
    congr 2
    refine List.filter_congr fun r _ => ?_
    by_cases hr : r.record.key = key
    · subst hr
      simp [hkey]
    · simp [hr]
  · rename_i hkey
    rw [List.filter_eq_nil_iff.mpr]
    · rfl
    · intro r _ hr
      simp only [Bool.and_eq_true, beq_iff_eq, decide_eq_true_eq, Bool.not_eq_true',
        List.contains_eq_mem, decide_eq_false_iff_not] at hr
      obtain ⟨rfl, ⟨hmin, hmax⟩, hseen⟩ := hr
      exact hkey ⟨hmin, hmax, hseen⟩

theorem mem_survivors {minKey maxKey : Int64} {seen : List Int64} {rs : List PlacedRecord}
    {p : PlacedRecord} (h : p ∈ survivors minKey maxKey seen rs) : p ∈ rs := by
  have hsub : (latestOfKeys (rs.filter fun r =>
      minKey ≤ r.record.key && r.record.key ≤ maxKey && !seen.contains r.record.key)).Sublist
      (rs.filter fun r =>
        minKey ≤ r.record.key && r.record.key ≤ maxKey && !seen.contains r.record.key) := by
    generalize rs.filter _ = ps
    induction ps with
    | nil => exact List.Sublist.refl _
    | cons q ps ih =>
        unfold latestOfKeys
        split
        · exact ih.cons q
        · exact ih.cons_cons q
  exact (List.mem_filter.mp (hsub.subset h)).1

end Archive

namespace Entry

theorem nodup_of_filter {es : List Entry}
    (h : ∀ key, (es.filter (·.record.key == key)).length ≤ 1) :
    (es.map (·.record.key)).Nodup := by
  induction es with
  | nil => exact List.Pairwise.nil
  | cons e es ih =>
      rw [List.map_cons, List.nodup_cons]
      constructor
      · intro hm
        obtain ⟨f, hf, hk⟩ := List.mem_map.mp hm
        have he := h e.record.key
        rw [List.filter_cons_of_pos (by simp), List.length_cons] at he
        have hnone : es.filter (·.record.key == e.record.key) = [] := by
          rw [← List.length_eq_zero_iff]
          omega
        exact List.filter_eq_nil_iff.mp hnone f hf (by simpa using hk)
      · refine ih fun key => Nat.le_trans ?_ (h key)
        exact ((List.sublist_cons_self e es).filter _).length_le

end Entry

namespace Volume

def entryOf (v : Volume) (p : PlacedRecord) : Entry :=
  ⟨p.record, Location.pack v.segment.index p.offset⟩

def survivors (minKey maxKey : Int64) (seen : List Int64) (v : Volume) : List Entry :=
  (Archive.survivors minKey maxKey seen (Record.place 0 v.records)).map v.entryOf

def allSurvivors (minKey maxKey : Int64) : List Int64 → List Volume → List Entry
  | _, [] => []
  | seen, v :: vs =>
    let kept := v.survivors minKey maxKey seen
    kept ++ allSurvivors minKey maxKey (kept.map (·.record.key) ++ seen) vs

def survivingSize (minKey maxKey : Int64) (run : List Volume) : Nat :=
  Record.sizeAll ((allSurvivors minKey maxKey [] run.reverse).map Entry.record)

theorem filter_survivors (minKey maxKey : Int64) (seen : List Int64) (v : Volume) (key : Int64) :
    (v.survivors minKey maxKey seen).filter (·.record.key == key) =
      if minKey ≤ key ∧ key ≤ maxKey ∧ key ∉ seen then (Entry.latest key v.entries).toList
      else [] := by
  have hlatest : Entry.latest key v.entries =
      ((Record.place 0 v.records).filter (·.record.key == key)).getLast?.map v.entryOf := by
    rw [Entry.latest, entries, List.filter_map, List.getLast?_map]
    rfl
  have hfilter : (v.survivors minKey maxKey seen).filter (·.record.key == key) =
      ((Archive.survivors minKey maxKey seen (Record.place 0 v.records)).filter
        (·.record.key == key)).map v.entryOf := by
    rw [survivors, List.filter_map]
    rfl
  rw [hfilter, Archive.filter_survivors, hlatest]
  split
  · rw [Option.toList_map]
  · rfl

/-- A key in the range has its latest entry of the run among the survivors, and nothing else. -/
theorem filter_allSurvivors (minKey maxKey : Int64) (seen : List Int64) (vs : List Volume)
    (key : Int64) :
    (allSurvivors minKey maxKey seen vs).filter (·.record.key == key) =
      if minKey ≤ key ∧ key ≤ maxKey ∧ key ∉ seen then
        (Entry.latest key (allEntries vs.reverse)).toList
      else [] := by
  induction vs generalizing seen with
  | nil => simp [allSurvivors, allEntries]
  | cons v vs ih =>
      have hall : allEntries (v :: vs).reverse = allEntries vs.reverse ++ v.entries := by
        simp [allEntries]
      have hkept := filter_survivors minKey maxKey seen v key
      have hmem : key ∈ (v.survivors minKey maxKey seen).map (·.record.key) ↔
          (v.survivors minKey maxKey seen).filter (·.record.key == key) ≠ [] := by
        rw [Ne, List.filter_eq_nil_iff]
        simp
      rw [hkept] at hmem
      rw [allSurvivors]
      simp only [List.filter_append, ih, hall, Entry.latest_append, List.mem_append, hkept, hmem]
      by_cases hkey : minKey ≤ key ∧ key ≤ maxKey ∧ key ∉ seen
      · obtain ⟨hmin, hmax, hseen⟩ := hkey
        cases Entry.latest key v.entries with
        | none => simp [hmin, hmax, hseen]
        | some e => simp [hmin, hmax, hseen]
      · rw [if_neg hkey, if_neg hkey, if_neg]
        · rfl
        · exact fun h => hkey ⟨h.1, h.2.1, fun hs => h.2.2 (.inr hs)⟩

theorem filter_allSurvivors_nil (minKey maxKey : Int64) (run : List Volume) (key : Int64) :
    (allSurvivors minKey maxKey [] run.reverse).filter (·.record.key == key) =
      if minKey ≤ key ∧ key ≤ maxKey then (Entry.latest key (allEntries run)).toList else [] := by
  have h := filter_allSurvivors minKey maxKey [] run.reverse key
  rw [List.reverse_reverse] at h
  simpa using h

/-- What survives of a run are the latest entries of the keys in the range. -/
theorem mem_allSurvivors {minKey maxKey : Int64} {run : List Volume} {e : Entry} :
    e ∈ allSurvivors minKey maxKey [] run.reverse ↔
      (minKey ≤ e.record.key ∧ e.record.key ≤ maxKey) ∧
        Entry.latest e.record.key (allEntries run) = some e := by
  have hfilter : e ∈ allSurvivors minKey maxKey [] run.reverse ↔
      e ∈ (allSurvivors minKey maxKey [] run.reverse).filter
        (·.record.key == e.record.key) := by
    simp
  rw [hfilter, filter_allSurvivors_nil]
  split
  · rename_i hin
    rw [Option.mem_toList, and_iff_right hin]
  · rename_i hout
    simp [hout]

theorem nodup_allSurvivors (minKey maxKey : Int64) (run : List Volume) :
    ((allSurvivors minKey maxKey [] run.reverse).map (·.record.key)).Nodup := by
  refine Entry.nodup_of_filter fun key => ?_
  rw [filter_allSurvivors_nil]
  split
  · cases Entry.latest key (allEntries run) <;> simp
  · exact Nat.zero_le _

end Volume

end MeteredStorage
