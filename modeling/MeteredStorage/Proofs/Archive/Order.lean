import MeteredStorage.Archive.Basic

namespace MeteredStorage.Segment

/-- How recent the data of a segment is. A segment that is being written counts by its index. -/
def generation (s : Segment) : Nat := (s.footer.map (·.generation.toNat)).getD s.index.toNat

def origin (s : Segment) : Nat := (s.footer.map (·.mergedFrom.toNat)).getD s.index.toNat

/-- The interval of generations is not empty and no newer than the segment itself. -/
structure Dated (s : Segment) : Prop where
  origin_le : s.origin ≤ s.generation
  generation_le : s.generation ≤ s.index.toNat

/-- The data of each segment is older than that of those behind it. -/
structure Ranked (line : List Segment) : Prop where
  dated : ∀ s ∈ line, s.Dated
  rising : line.Pairwise fun s t => s.generation < t.origin

variable {s t : Segment} {ss line : List Segment}

theorem generation_of_footer {f : Footer} (h : s.footer = some f) :
    s.generation = f.generation.toNat := by
  simp [generation, h]

theorem origin_of_footer {f : Footer} (h : s.footer = some f) : s.origin = f.mergedFrom.toNat := by
  simp [origin, h]

theorem Ranked.generation_rising (h : Ranked line) :
    line.Pairwise fun s t => s.generation < t.generation :=
  h.rising.imp_of_mem fun _ ht hst => Nat.lt_of_lt_of_le hst (h.dated _ ht).origin_le

theorem Ranked.sublist (h : Ranked line) (hs : ss.Sublist line) : Ranked ss :=
  ⟨fun s hm => h.dated s (hs.subset hm), h.rising.sublist hs⟩

theorem ranked_concat :
    Ranked (line ++ [s]) ↔ Ranked line ∧ s.Dated ∧ ∀ t ∈ line, t.generation < s.origin := by
  constructor
  · intro h
    obtain ⟨-, -, hlast⟩ := List.pairwise_append.mp h.rising
    exact ⟨h.sublist (List.sublist_append_left ..), h.dated s (by simp),
      fun t ht => hlast t ht s (List.mem_singleton_self s)⟩
  · rintro ⟨h, hs, hlast⟩
    refine ⟨fun t ht => ?_, List.pairwise_append.mpr ⟨h.rising, List.pairwise_singleton .., ?_⟩⟩
    · rcases List.mem_append.mp ht with ht | ht
      · exact h.dated t ht
      · rw [List.mem_singleton.mp ht]
        exact hs
    · intro t ht u hu
      rw [List.mem_singleton.mp hu]
      exact hlast t ht

theorem insertBy_perm (le : Segment → Segment → Bool) (s : Segment) (ts : List Segment) :
    (insertBy le s ts).Perm (s :: ts) := by
  induction ts with
  | nil => exact List.Perm.refl _
  | cons t ts ih =>
      unfold insertBy
      split
      · exact List.Perm.refl _
      · exact (List.Perm.cons t ih).trans (List.Perm.swap s t ts)

theorem sortByAge_perm (ss : List Segment) : (sortByAge ss).Perm ss := by
  induction ss with
  | nil => exact List.Perm.refl _
  | cons s ss ih => exact (insertBy_perm _ s _).trans (List.Perm.cons s ih)

theorem before_iff (hs : s.isComplete) (ht : t.isComplete) (hne : s.generation ≠ t.generation) :
    s.before t = true ↔ s.generation < t.generation := by
  obtain ⟨f, hf⟩ := Option.isSome_iff_exists.mp hs
  obtain ⟨g, hg⟩ := Option.isSome_iff_exists.mp ht
  rw [generation_of_footer hf, generation_of_footer hg] at *
  have hfg : f.generation ≠ g.generation := fun h => hne (congrArg UInt64.toNat h)
  simp [before, hf, hg, Footer.before, hfg, UInt64.lt_iff_toNat_lt]

theorem insertBy_rising (hs : s.isComplete) (hc : ∀ t ∈ ss, t.isComplete)
    (hne : ∀ t ∈ ss, s.generation ≠ t.generation)
    (hr : ss.Pairwise fun s t => s.generation < t.generation) :
    (insertBy before s ss).Pairwise fun s t => s.generation < t.generation := by
  induction ss with
  | nil => exact List.pairwise_singleton ..
  | cons t ss ih =>
      obtain ⟨hfirst, hrest⟩ := List.pairwise_cons.mp hr
      have hb := before_iff hs (hc t (List.mem_cons_self ..)) (hne t (List.mem_cons_self ..))
      unfold insertBy
      split
      · rename_i h
        have hst := hb.mp h
        refine List.Pairwise.cons (fun u hu => ?_) hr
        rcases List.mem_cons.mp hu with rfl | hu
        · exact hst
        · exact Nat.lt_trans hst (hfirst u hu)
      · rename_i h
        have hts : t.generation < s.generation := by
          have hle := Nat.le_of_not_lt fun hlt => h (hb.mpr hlt)
          exact Nat.lt_of_le_of_ne hle (hne t (List.mem_cons_self ..)).symm
        refine List.Pairwise.cons (fun u hu => ?_)
          (ih (fun u hu => hc u (List.mem_cons_of_mem _ hu))
            (fun u hu => hne u (List.mem_cons_of_mem _ hu)) hrest)
        rcases List.mem_cons.mp ((insertBy_perm before s ss).mem_iff.mp hu) with rfl | hu
        · exact hts
        · exact hfirst u hu

theorem sortByAge_rising (hc : ∀ s ∈ ss, s.isComplete)
    (hne : ss.Pairwise fun s t => s.generation ≠ t.generation) :
    (sortByAge ss).Pairwise fun s t => s.generation < t.generation := by
  induction ss with
  | nil => exact List.Pairwise.nil
  | cons s ss ih =>
      obtain ⟨hfirst, hrest⟩ := List.pairwise_cons.mp hne
      have hmem {t : Segment} (ht : t ∈ sortByAge ss) : t ∈ ss :=
        (sortByAge_perm ss).mem_iff.mp ht
      exact insertBy_rising (hc s (List.mem_cons_self ..))
        (fun t ht => hc t (List.mem_cons_of_mem _ (hmem ht))) (fun t ht => hfirst t (hmem ht))
        (ih (fun t ht => hc t (List.mem_cons_of_mem _ ht)) hrest)

/-- However a ranked line is shuffled, sorting it by age restores it. -/
theorem Ranked.sortByAge_eq (h : Ranked line) (hc : ∀ s ∈ line, s.isComplete)
    (hp : ss.Perm line) : sortByAge ss = line := by
  have hne : ss.Pairwise fun s t => s.generation ≠ t.generation :=
    hp.symm.pairwise (h.generation_rising.imp Nat.ne_of_lt) fun hst => hst.symm
  refine List.Perm.eq_of_pairwise ?_
    (sortByAge_rising (fun s hs => hc s (hp.mem_iff.mp hs)) hne) h.generation_rising
    ((sortByAge_perm ss).trans hp)
  intro s t _ _ hst hts
  exact absurd hst (Nat.lt_asymm hts)

end MeteredStorage.Segment
