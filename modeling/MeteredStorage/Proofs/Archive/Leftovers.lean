import MeteredStorage.Proofs.Archive.Interruption

namespace MeteredStorage

namespace Archive

variable {s s' : Hosted Archive} {line old front run back us ws : List Volume}
  {current out : Option Volume} {m : Merge} {newest f : Footer} {u v : Volume}
  {keys keys' : Int64 → Prop}

/--
The volumes `old` have been replaced. Together with any of them the line has the same latest entries
of the given keys, once the volumes that others cover are left out.
-/
structure Outdated (keys : Int64 → Prop) (line old : List Volume) (current : Option Volume) : Prop where
  dated : ∀ v ∈ old, v.segment.Dated
  older : ∀ v ∈ old, ∀ u ∈ current, v.segment.generation < u.segment.origin
  restored : ∀ rest, rest.Sublist old → ∃ line', (uncovered (line ++ rest)).Perm line' ∧
    Segment.Ranked (line'.map Volume.segment) ∧
    ∀ key, keys key → Entry.latest key (Volume.allEntries line') =
      Entry.latest key (Volume.allEntries line)

theorem Outdated.nothing (h : Segment.Ranked (line.map Volume.segment)) :
    Outdated keys line [] current where
  dated := by simp
  older := by simp
  restored rest hr := by
    rw [List.sublist_nil.mp hr, List.append_nil, uncovered_of_ranked h]
    exact ⟨line, List.Perm.refl _, h, fun _ _ => rfl⟩

theorem Outdated.started (h : Outdated keys line old none)
    (hnew : ∀ u ∈ old, u.segment.index.toNat < v.segment.origin) :
    Outdated keys line old (some v) where
  dated := h.dated
  older u hu w hw := by
    cases hw
    exact Nat.lt_of_le_of_lt (h.dated u hu).generation_le (hnew u hu)
  restored := h.restored

theorem Outdated.pushed (h : Outdated keys line old (some v)) (r : Record) :
    Outdated keys line old (some (v.push r)) where
  dated := h.dated
  older u hu w hw := by
    cases hw
    exact h.older u hu v rfl
  restored := h.restored

theorem Outdated.removed (h : Outdated keys line (v :: old) current) :
    Outdated keys line old current where
  dated u hu := h.dated u (List.mem_cons_of_mem _ hu)
  older u hu := h.older u (List.mem_cons_of_mem _ hu)
  restored rest hr := h.restored rest (hr.cons v)

theorem perm_uncovered (h : us.Perm ws) : (uncovered us).Perm (uncovered ws) := by
  refine (h.filter _).trans (List.Perm.of_eq (List.filter_congr fun v _ => ?_))
  rw [isCovered_perm (h.map _)]

theorem Outdated.reverse (h : Outdated keys line old current) :
    Outdated keys line old.reverse current where
  dated u hu := h.dated u (List.mem_reverse.mp hu)
  older u hu := h.older u (List.mem_reverse.mp hu)
  restored rest hr := by
    have hsub : rest.reverse.Sublist old := by
      rw [← List.reverse_reverse old]
      exact hr.reverse
    obtain ⟨line', hp, hline⟩ := h.restored rest.reverse hsub
    exact ⟨line', (perm_uncovered ((List.reverse_perm rest).symm.append_left line)).trans hp, hline⟩

/-- What a session has written last neither covers another volume nor is covered by one. -/
theorem uncovered_concat (hf : v.segment.footer = some f) (hs : f.merged = false)
    (hnew : ∀ u ∈ us, u.segment.generation < v.segment.generation) :
    uncovered (us ++ [v]) = uncovered us ++ [v] := by
  have hlast : isCovered ((us ++ [v]).map Volume.segment) v.segment = false := by
    rw [Bool.eq_false_iff, Ne, Segment.isCovered_iff]
    rintro ⟨g, hg, t, ht, k, hk, hcovers⟩
    obtain ⟨u, hu, rfl⟩ := List.mem_map.mp ht
    obtain ⟨-, hmerged, -, hgeneration⟩ := (Segment.covers_iff hk hg).mp hcovers
    rcases List.mem_append.mp hu with hu | hu
    · exact Nat.not_lt.mpr hgeneration (hnew u hu)
    · rw [List.mem_singleton.mp hu, hf] at hk
      cases hk
      rw [hs] at hmerged
      cases hmerged
  have hothers : ∀ u ∈ us, isCovered ((us ++ [v]).map Volume.segment) u.segment =
      isCovered (us.map Volume.segment) u.segment := by
    intro u _
    rw [Bool.eq_iff_iff, Segment.isCovered_iff, Segment.isCovered_iff]
    constructor
    · rintro ⟨g, hg, t, ht, k, hk, hcovers⟩
      rw [List.map_append, List.mem_append] at ht
      rcases ht with ht | ht
      · exact ⟨g, hg, t, ht, k, hk, hcovers⟩
      · rw [List.mem_singleton.mp ht, hf] at hk
        cases hk
        rw [((Segment.covers_iff (t := v.segment) hf hg).mp hcovers).2.1] at hs
        cases hs
    · rintro ⟨g, hg, t, ht, hk⟩
      exact ⟨g, hg, t, by rw [List.map_append]; exact List.mem_append_left _ ht, hk⟩
  rw [uncovered, List.filter_append, List.filter_congr fun u hu => congrArg _ (hothers u hu),
    List.filter_cons_of_pos (by rw [hlast]; rfl)]
  rfl

theorem Outdated.ended (h : Outdated keys line old (some v)) (hs : f.merged = false)
    (hline : Segment.Ranked ((line ++ [v.finished f]).map Volume.segment))
    (horigin : (v.finished f).segment.origin = v.segment.origin) :
    Outdated keys (line ++ [v.finished f]) old none where
  dated := h.dated
  older := by simp
  restored rest hr := by
    obtain ⟨line', hp, hranked, hlatest⟩ := h.restored rest hr
    rw [List.map_append, List.map_singleton] at hline
    obtain ⟨-, hdated, hlast⟩ := Segment.ranked_concat.mp hline
    have hnew : ∀ u ∈ line ++ rest, u.segment.generation < (v.finished f).segment.origin := by
      intro u hu
      rcases List.mem_append.mp hu with hu | hu
      · exact hlast _ (List.mem_map_of_mem hu)
      · rw [horigin]
        exact h.older u (hr.subset hu) v rfl
    refine ⟨line' ++ [v.finished f], ?_, ?_, fun key hk => ?_⟩
    · have hperm : (line ++ [v.finished f] ++ rest).Perm (line ++ rest ++ [v.finished f]) := by
        rw [List.append_assoc, List.append_assoc]
        exact List.perm_append_comm.append_left line
      refine (perm_uncovered hperm).trans ?_
      rw [uncovered_concat (f := f) rfl hs fun u hu => Nat.lt_of_lt_of_le (hnew u hu) hdated.origin_le]
      exact hp.append_right _
    · rw [List.map_append, List.map_singleton]
      refine Segment.ranked_concat.mpr ⟨hranked, hdated, fun t ht => ?_⟩
      obtain ⟨u, hu, rfl⟩ := List.mem_map.mp ht
      exact hnew u (List.mem_filter.mp (hp.mem_iff.mpr hu)).1
    · rw [Volume.allEntries_append, Volume.allEntries_append, Entry.latest_append, Entry.latest_append,
        hlatest key hk]

/-- The inputs of a merge of two or more may stay behind. -/
theorem Prepared.outdated (hl : Shelved s.self s.host.disk line [] current)
    (hp : Prepared s s' line current m front run back newest out) (htwo : 2 ≤ run.length) :
    Outdated (fun key => newest.minKey ≤ key ∧ key ≤ newest.maxKey) (front ++ (out.toList ++ back))
      run current := by
  have hranked := hl.ranked
  rw [hp.line_eq, List.map_append] at hranked
  have hrun {u : Volume} (hu : u ∈ run) : u ∈ front ++ (run ++ back) := by simp [hu]
  refine ⟨fun u hu => hranked.dated _ (List.mem_append_left _ (List.mem_map_of_mem (hrun hu))),
    fun u hu w hw => ?_, fun rest hr => ?_⟩
  · exact (List.pairwise_append.mp hranked.rising).2.2 _ (List.mem_map_of_mem (hrun hu)) _
      (List.mem_map_of_mem (by rw [Option.mem_toList]; exact hw))
  · cases hout : out with
    | some o =>
        have hover : Overlap front run back rest newest o :=
          hp.overlap hl hout fun w hw => hr.subset hw
        have hmutual : ¬Mutual run rest := by
          rintro ⟨w, hw, -⟩
          rw [hw, List.length_singleton] at htwo
          omega
        have : Decidable (Mutual run rest) := .isFalse hmutual
        refine ⟨front ++ o :: back, ?_, hover.replaced, fun _ _ => rfl⟩
        have hclear := hover.uncovered_eq
        rw [if_neg hmutual] at hclear
        exact List.Perm.of_eq hclear
    | none =>
        -- The run has no entries of these keys, so what is left of it may return to its place.
        have hmoves := hp.empty.mp hout
        have hback : Segment.Ranked ((front ++ (rest ++ back)).map Volume.segment) := by
          rw [← List.map_append] at hranked
          exact hranked.sublist
            (((hr.append_right back).append_left front |>.trans (List.sublist_append_left ..)).map _)
        refine ⟨front ++ (rest ++ back), ?_, hback, fun key hk => ?_⟩
        · have hperm : (front ++ ((none : Option Volume).toList ++ back) ++ rest).Perm
              (front ++ (rest ++ back)) := by
            rw [Option.toList_none, List.nil_append, List.append_assoc]
            exact List.perm_append_comm.append_left front
          refine (perm_uncovered hperm).trans ?_
          rw [uncovered_of_ranked hback]
        · have hnone : Entry.latest key (Volume.allEntries run) = none := by
            cases hrun : Entry.latest key (Volume.allEntries run) with
            | none => rfl
            | some e =>
                obtain ⟨move, hmove, -⟩ := hp.relocates.complete key e hk.1 hk.2 hrun
                rw [hmoves] at hmove
                cases hmove
          have hrest : Entry.latest key (Volume.allEntries rest) = none := by
            rw [Entry.latest_eq_none] at hnone ⊢
            intro e he
            obtain ⟨v, hv, hev⟩ := Volume.mem_allEntries.mp he
            exact hnone e (Volume.mem_allEntries.mpr ⟨v, hr.subset hv, hev⟩)
          simp only [Option.toList_none, List.nil_append, Volume.allEntries_append,
            Entry.latest_append, hrest, Option.or_none]

end Archive

end MeteredStorage
