import MeteredStorage.Proofs.Archive.Copying

namespace MeteredStorage

namespace Segment

theorem toNat_min (x y : UInt64) : (min x y).toNat = min x.toNat y.toNat := by
  change (if x ≤ y then x else y).toNat = _
  rw [Nat.min_def]
  simp only [UInt64.le_iff_toNat_le]
  split <;> rfl

theorem foldl_origin (first : UInt64) (ss : List Segment) (hc : ∀ s ∈ ss, s.isComplete) :
    let least := ss.foldl (fun m s => min m ((s.footer.map Footer.mergedFrom).getD m)) first
    least.toNat ≤ first.toNat ∧ (∀ s ∈ ss, least.toNat ≤ s.origin) ∧
      (least = first ∨ ∃ s ∈ ss, least.toNat = s.origin) := by
  induction ss generalizing first with
  | nil => exact ⟨Nat.le_refl _, by simp, .inl rfl⟩
  | cons s ss ih =>
      obtain ⟨f, hf⟩ := Option.isSome_iff_exists.mp (hc s (List.mem_cons_self ..))
      have hs := origin_of_footer hf
      obtain ⟨hle, hall, hmem⟩ := ih (min first f.mergedFrom)
        fun t ht => hc t (List.mem_cons_of_mem _ ht)
      simp only [List.foldl_cons, hf, Option.map_some, Option.getD_some]
      rw [toNat_min, Nat.le_min] at hle
      refine ⟨hle.1, fun t ht => ?_, ?_⟩
      · rcases List.mem_cons.mp ht with rfl | ht
        · rw [hs]
          exact hle.2
        · exact hall t ht
      · rcases hmem with hmem | ⟨t, ht, hmem⟩
        · have hmin := congrArg UInt64.toNat hmem
          rw [toNat_min] at hmin
          rcases Nat.le_total first.toNat f.mergedFrom.toNat with h | h
          · rw [Nat.min_eq_left h] at hmin
            exact .inl (UInt64.toNat_inj.mp hmin)
          · rw [Nat.min_eq_right h, ← hs] at hmin
            exact .inr ⟨s, List.mem_cons_self .., hmin⟩
        · exact .inr ⟨t, List.mem_cons_of_mem _ ht, hmem⟩

end Segment

/-- `out` is marked as the merged data of `run`, the newest of which has the footer `newest`. -/
structure Merged (run : List Volume) (newest : Footer) (out : Volume) : Prop where
  footer : ∃ f, out.segment.footer = some f ∧ f.merged = true ∧ f.minKey = newest.minKey ∧
    f.maxKey = newest.maxKey
  generation : out.segment.generation = newest.generation.toNat
  origin_le : ∀ w ∈ run, out.segment.origin ≤ w.segment.origin
  origin_mem : ∃ w ∈ run, out.segment.origin = w.segment.origin

/-- The footer that a merge writes marks its output as the merged data of the run. -/
theorem Merged.of_footer {run : List Volume} {w out : Volume} {newest f : Footer}
    (hc : ∀ u ∈ run, u.segment.isComplete) (hw : w ∈ run) (hnewest : w.segment.footer = some newest)
    (hf : out.segment.footer = some f) (hmerged : f.merged = true) (hmin : f.minKey = newest.minKey)
    (hmax : f.maxKey = newest.maxKey) (hgen : f.generation = newest.generation)
    (horigin : f.mergedFrom = (run.map Volume.segment).foldl
      (fun m s => min m ((s.footer.map Footer.mergedFrom).getD m)) newest.mergedFrom) :
    Merged run newest out := by
  obtain ⟨-, hleast, hfrom⟩ := Segment.foldl_origin newest.mergedFrom (run.map Volume.segment)
    fun t ht => by
      obtain ⟨u, hu, rfl⟩ := List.mem_map.mp ht
      exact hc u hu
  have hgeneration := Segment.generation_of_footer hf
  have horg := Segment.origin_of_footer hf
  rw [horigin] at horg
  refine ⟨⟨f, hf, hmerged, hmin, hmax⟩, by rw [hgeneration, hgen], fun u hu => ?_, ?_⟩
  · rw [horg]
    exact hleast _ (List.mem_map_of_mem hu)
  · rw [horg]
    rcases hfrom with he | ⟨t, ht, he⟩
    · exact ⟨w, hw, by rw [he, Segment.origin_of_footer hnewest]⟩
    · obtain ⟨u, hu, rfl⟩ := List.mem_map.mp ht
      exact ⟨u, hu, he⟩

namespace Segment

theorem Ranked.replace {front run back : List Volume} {w out : Volume} {newest : Footer}
    (h : Ranked ((front ++ (run ++ back)).map Volume.segment)) (hlast : run.getLast? = some w)
    (hw : w.segment.footer = some newest) (ho : Merged run newest out)
    (hindex : w.segment.index.toNat < out.segment.index.toNat) :
    Ranked ((front ++ out :: back).map Volume.segment) := by
  have hwrun : w ∈ run := List.mem_of_getLast? hlast
  have hgen : out.segment.generation = w.segment.generation := by
    rw [ho.generation, generation_of_footer hw]
  have hdated : w.segment.Dated :=
    h.dated _ (List.mem_map_of_mem (List.mem_append_right _ (List.mem_append_left _ hwrun)))
  rw [List.map_append, List.map_append] at h
  obtain ⟨hfront, hmid, hcross⟩ := List.pairwise_append.mp h.rising
  obtain ⟨-, hback, hmidback⟩ := List.pairwise_append.mp hmid
  rw [List.map_append, List.map_cons]
  refine ⟨fun t ht => ?_, List.pairwise_append.mpr ⟨hfront, List.Pairwise.cons (fun t ht => ?_) hback,
    fun t ht u hu => ?_⟩⟩
  · rcases List.mem_append.mp ht with ht | ht
    · exact h.dated t (List.mem_append_left _ ht)
    · rcases List.mem_cons.mp ht with rfl | ht
      · refine ⟨?_, ?_⟩
        · rw [hgen]
          exact Nat.le_trans (ho.origin_le w hwrun) hdated.origin_le
        · rw [hgen]
          exact Nat.le_of_lt (Nat.lt_of_le_of_lt hdated.generation_le hindex)
      · exact h.dated t (List.mem_append_right _ (List.mem_append_right _ ht))
  · rw [hgen]
    exact hmidback _ (List.mem_map_of_mem hwrun) t ht
  · rcases List.mem_cons.mp hu with rfl | hu
    · obtain ⟨x, hx, he⟩ := ho.origin_mem
      rw [he]
      exact hcross t ht _ (List.mem_append_left _ (List.mem_map_of_mem hx))
    · exact hcross t ht u (List.mem_append_right _ hu)

end Segment

namespace Archive

variable {s : Hosted Archive} {line old front run back vs : List Volume} {current : Option Volume}
  {v out : Volume} {newest : Footer}

theorem describes_mergeFooter {d : Disk} (hv : v.Stored d) (newest : Footer)
    (mergedFrom created : UInt64) :
    Volume.Describes (mergeFooter newest mergedFrom v.segment created v.records.length v.dataSize) v := by
  have hsize := hv.size_le
  have hlen := v.length_le_dataSize
  rw [Location.maxOffset_eq] at hsize
  refine ⟨rfl, UInt64.toNat_ofNat_of_lt' ?_, UInt64.toNat_ofNat_of_lt' ?_, by simp [mergeFooter]⟩
  · simp only [UInt64.size]
    omega
  · simp only [UInt64.size]
    omega

/-- The output of a merge has been filled, and completed unless nothing was copied. -/
theorem Kept.fillOutput_cases (h : Kept s.self s.host.disk (out :: vs)) (hempty : out.records = [])
    (hopen : out.segment.footer = none) (newest : Footer) (mergedFrom : UInt64)
    (hrun : ∀ u ∈ run, u ∈ vs ∧ u.segment.isComplete) :
    (∃ out' s', fillOutput out.segment newest mergedFrom (run.map Volume.segment).reverse s =
        (.error (.segmentFull out.segment.index), s') ∧ s'.self = s.self ∧
      out'.segment = out.segment ∧ Kept s'.self s'.host.disk (out' :: vs) ∧
      Location.maxOffset < Volume.survivingSize newest.minKey newest.maxKey run ∧
      Disk.Within (Tentative s.self.directory s.self.name vs) s.host.disk s'.host.disk) ∨
    ∃ out' moves s', fillOutput out.segment newest mergedFrom (run.map Volume.segment).reverse s =
        (.ok (moves, out'.dataSize), s') ∧
      (moves = [] ∧ s'.self = s.self ∧ out'.segment = out.segment ∧
          Relocates run [] newest.minKey newest.maxKey [] ∧
          Disk.Within (Tentative s.self.directory s.self.name vs) s.host.disk s'.host.disk ∨
        moves ≠ [] ∧ ∃ f, s'.self = s.self.finished out.segment f ∧ out'.segment =
          { out.segment with footer := some f } ∧ f.merged = true ∧ f.minKey = newest.minKey ∧
          f.maxKey = newest.maxKey ∧ f.generation = newest.generation ∧ f.mergedFrom = mergedFrom ∧
          Relocates run [out'] newest.minKey newest.maxKey moves ∧
          Disk.Within (fun e => Tentative s.self.directory s.self.name vs e ∨
            Disk.Same s'.host.disk e) s.host.disk s'.host.disk) ∧
      Kept s'.self s'.host.disk (out' :: vs) := by
  have hus : ∀ u ∈ run.reverse, u ∈ vs ∧ u.segment.isComplete :=
    fun u hu => hrun u (List.mem_reverse.mp hu)
  have hzero : out.dataSize = 0 := by rw [Volume.dataSize, hempty]; rfl
  have hcopy := h.copyLatest_cases hopen (by simp [hempty]) newest.minKey newest.maxKey [] run.reverse hus
  rw [hzero] at hcopy
  rw [← List.map_reverse]
  rcases hcopy with ⟨out', s', hgo, hself, hseg, hk, hsize, hleft⟩ | ⟨s', hgo, hself, hk, hleft⟩
  · rw [Volume.dataSize_pushAll, hzero, Nat.zero_add] at hsize
    refine .inl ⟨out', s', ?_, hself, hseg, hk, hsize, hleft⟩
    simp only [fillOutput, Task.bind_run, hgo]
  · let es := Volume.allSurvivors newest.minKey newest.maxKey [] run.reverse
    let moves := (out.copies es).map Relocation.ofCopy
    replace hk : Kept s'.self s'.host.disk (out.pushAll es :: vs) := hk
    have hlength : moves.length = (out.pushAll es).records.length := by
      simp [moves, Volume.pushAll, hempty, Volume.length_copies]
    have hrelocates (outs : List Volume)
        (ho : Volume.allEntries outs = (out.pushAll es).entries) :
        Relocates run outs newest.minKey newest.maxKey moves :=
      relocates_copies hempty newest.minKey newest.maxKey ho
    right
    by_cases hm : moves = []
    · refine ⟨out.pushAll es, moves, s', ?_, .inl ⟨hm, hself, rfl, ?_, hleft⟩, hk⟩
      · simp only [fillOutput, Task.bind_run, hgo]
        rw [show (List.map Relocation.ofCopy (out.copies es)).isEmpty = true by
          rw [List.isEmpty_iff]; exact hm]
        rfl
      · rw [← hm]
        refine hrelocates [] ?_
        have hnone : (out.pushAll es).records = [] := by
          rw [← List.length_eq_zero_iff, ← hlength, hm]
          rfl
        rw [Volume.entries, hnone]
        rfl
    · let f := mergeFooter newest mergedFrom out.segment s'.host.clock moves.length
        (out.pushAll es).dataSize
      have hdesc : Volume.Describes f (out.pushAll es) := by
        have h := describes_mergeFooter (hk.holds.stored _ (List.mem_cons_self ..)) newest mergedFrom
          s'.host.clock
        rwa [← hlength] at h
      obtain ⟨s'', hfin, hself', hk'⟩ := hk.finishSegment_run hopen hdesc
      have hbrief := brief_finishSegment (out.pushAll es).segment f s'
      rw [hfin] at hbrief
      refine ⟨(out.pushAll es).finished f, moves, s'', ?_, .inr ⟨hm, f, ?_, rfl, rfl, rfl, rfl, rfl,
        rfl, hrelocates _ ?_, (hleft.mono fun _ => .inl).trans
          (hbrief.within.mono fun _ => .imp_left hleft.last)⟩, hk'⟩
      · have hfin' : finishSegment out.segment f s' = (.ok (), s'') := hfin
        simp only [fillOutput, Task.bind_run, hgo]
        rw [show (List.map Relocation.ofCopy (out.copies es)).isEmpty = false by
          rw [List.isEmpty_eq_false_iff]; exact hm]
        simp only [Bool.not_false, if_true, Task.bind_run, Task.get_run]
        rw [show finishSegment out.segment _ s' = (.ok (), s'') from hfin']
        rfl
      · rw [hself', hself]
        rfl
      · simp [Volume.allEntries, Volume.entries_finished]

def Halted (a : Archive) (vs : List Volume) (d d' e : Disk) : Prop :=
  Disk.Same d e ∨ Tentative a.directory a.name vs e ∨ Disk.Same d' e

/--
What a merge has prepared: `out` holds the latest records of `run` and stands in its place, while
the volumes of the run are still there.
-/
structure Prepared (s s' : Hosted Archive) (line : List Volume) (current : Option Volume) (m : Merge)
    (front run back : List Volume) (newest : Footer) (out : Option Volume) : Prop where
  line_eq : line = front ++ (run ++ back)
  last : ∃ w, run.getLast? = some w ∧ w.segment.footer = some newest
  inputs : m.inputs = (run.map Volume.segment).reverse
  room : s.self.nextIndex.toNat < Location.maxSegments
  follows : Follows 1 s.self s'.self
  relocates : Relocates run out.toList newest.minKey newest.maxKey m.moves
  output : m.output.index = s.self.nextIndex
  merged : ∀ o ∈ out, Merged run newest o ∧ o.segment.index = s.self.nextIndex
  empty : out = none ↔ m.moves = []
  shelved : Shelved s'.self s'.host.disk (front ++ (out.toList ++ back)) run current
  left : Disk.Within (Halted s.self (current.toList ++ (line ++ [])) s.host.disk s'.host.disk)
    s.host.disk s'.host.disk

theorem perm_replace (outs current front run back : List Volume) :
    (outs ++ (current ++ (front ++ (run ++ back) ++ []))).Perm
      (current ++ ((front ++ (outs ++ back)) ++ run)) := by
  rw [List.append_nil, List.append_assoc front, List.append_assoc outs]
  refine (List.perm_append_comm_assoc ..).trans (List.Perm.append_left current ?_)
  refine (List.perm_append_comm_assoc ..).trans (List.Perm.append_left front ?_)
  exact List.Perm.append_left outs List.perm_append_comm

/-- `outs` takes the place of a run, whose volumes are still there. -/
theorem Shelved.replaced (h : Shelved s.self s.host.disk (front ++ (run ++ back)) [] current)
    {t : Hosted Archive} {outs : List Volume}
    (hk : Kept t.self t.host.disk (outs ++ (current.toList ++ (front ++ (run ++ back) ++ []))))
    (hwriter : t.self.writer = s.self.writer) (houts : ∀ o ∈ outs, o.segment.isComplete)
    (hr : Segment.Ranked ((front ++ (outs ++ back) ++ current.toList).map Volume.segment)) :
    Shelved t.self t.host.disk (front ++ (outs ++ back)) run current where
  kept := hk.perm (perm_replace ..)
  complete v hv := by
    simp only [List.mem_append] at hv
    rcases hv with (hv | hv | hv) | hv
    · exact h.complete v (by simp [hv])
    · exact houts v hv
    · exact h.complete v (by simp [hv])
    · exact h.complete v (by simp [hv])
  unfinished := h.unfinished
  writer := hwriter.trans h.writer
  ranked := hr

section

variable {s1 s2 s3 : Hosted Archive} {ss : List Segment} {output : Segment}
  {moves : List Relocation} {size : Nat}

def announced (s : Hosted Archive) (ss : List Segment) (newest : Footer) (output : Segment) :
    Hosted Archive :=
  { s with host := { s.host with
      events := .mergeStarted output.index ss.length newest.generation :: s.host.events } }

@[simp] theorem announced_self (s : Hosted Archive) (ss : List Segment) (newest : Footer)
    (output : Segment) : (announced s ss newest output).self = s.self := rfl

def fillFrom (ss : List Segment) (newest : Footer) (output : Segment) :
    ArchiveTask (List Relocation × Nat) :=
  fillOutput output newest
    (ss.foldl (fun m s => min m ((s.footer.map Footer.mergedFrom).getD m)) newest.mergedFrom) ss.reverse

theorem mergeRun_of_outOfRange (hcreate : createSegment s = (.ok output, s1))
    (hfill : fillFrom ss newest output (announced s1 ss newest output) = (.error .outOfRange, s2)) :
    mergeRun ss newest s = (.error .outOfRange, s2) := by
  rw [fillFrom, announced] at hfill
  simp only [mergeRun, Task.bind_run, hcreate, Hosted.report_run, Task.attempt_run, hfill,
    Task.throw_run]

theorem mergeRun_of_error {e : ArchiveError} (hcreate : createSegment s = (.ok output, s1))
    (hfill : fillFrom ss newest output (announced s1 ss newest output) = (.error e, s2))
    (he : e ≠ .outOfRange) (hremove : removeSegment output s2 = (.ok (), s3)) :
    mergeRun ss newest s = (.error e, s3) := by
  rw [fillFrom, announced] at hfill
  simp only [mergeRun, Task.bind_run, hcreate, Hosted.report_run, Task.attempt_run, hfill]
  cases e with
  | outOfRange => exact absurd rfl he
  | _ => simp only [hremove, Task.throw_run]

theorem mergeRun_of_no_moves (hcreate : createSegment s = (.ok output, s1))
    (hfill : fillFrom ss newest output (announced s1 ss newest output) = (.ok ([], size), s2))
    (hremove : removeSegment output s2 = (.ok (), s3)) :
    mergeRun ss newest s = (.ok ⟨output, size, ss.reverse, []⟩, s3) := by
  rw [fillFrom, announced] at hfill
  simp only [mergeRun, Task.bind_run, hcreate, Hosted.report_run, Task.attempt_run, hfill,
    List.isEmpty_nil, if_true, hremove, Task.pure_run]

theorem mergeRun_of_moves (hcreate : createSegment s = (.ok output, s1))
    (hfill : fillFrom ss newest output (announced s1 ss newest output) = (.ok (moves, size), s2))
    (hmoves : moves ≠ []) (hsync : syncDirectory s2 = (.ok (), s3)) :
    mergeRun ss newest s = (.ok ⟨output, size, ss.reverse, moves⟩, s3) := by
  have hfalse : moves.isEmpty = false := List.isEmpty_eq_false_iff.mpr hmoves
  rw [fillFrom, announced] at hfill
  simp only [mergeRun, Task.bind_run, hcreate, Hosted.report_run, Task.attempt_run, hfill, hfalse,
    Bool.false_eq_true, if_false, hsync, Task.pure_run]

theorem mergeRun_eq_ok {m : Merge} (hgo : mergeRun ss newest s = (.ok m, s3)) (hmoves : m.moves ≠ []) :
    ∃ s1 s2, createSegment s = (.ok m.output, s1) ∧
      fillFrom ss newest m.output (announced s1 ss newest m.output) = (.ok (m.moves, m.dataSize), s2) ∧
      m.inputs = ss.reverse ∧ syncDirectory s2 = (.ok (), s3) := by
  obtain ⟨output, s1, hcreate, hgo⟩ := Task.of_bind_ok hgo
  rw [Task.bind_ok (Hosted.report_run _ s1), Task.bind_ok (Task.attempt_run ..)] at hgo
  rcases hfill : fillFrom ss newest output (announced s1 ss newest output) with ⟨r, s2⟩
  rw [fillFrom, announced] at hfill
  rw [hfill] at hgo
  cases r with
  | error e =>
      cases e with
      | outOfRange => cases hgo
      | _ =>
          obtain ⟨_, _, -, hgo⟩ := Task.of_bind_ok hgo
          cases hgo
  | ok moved =>
      obtain ⟨moves, size⟩ := moved
      dsimp only at hgo
      split at hgo
      · rename_i hempty
        obtain ⟨_, _, -, hgo⟩ := Task.of_bind_ok hgo
        cases hgo
        exact absurd (List.isEmpty_iff.mp hempty) hmoves
      · obtain ⟨_, _, hsync, hgo⟩ := Task.of_bind_ok hgo
        cases hgo
        exact ⟨s1, s2, hcreate, hfill, rfl, hsync⟩

end

section Prepared

variable {t : Hosted Archive} {w : Volume} {output : Segment} {size : Nat}

theorem Shelved.prepared_none (h : Shelved s.self s.host.disk (front ++ (run ++ back)) [] current)
    (hlast : run.getLast? = some w) (hw : w.segment.footer = some newest)
    (hroom : s.self.nextIndex.toNat < Location.maxSegments) (hf : Follows 1 s.self t.self)
    (hrel : Relocates run [] newest.minKey newest.maxKey []) (hindex : output.index = s.self.nextIndex)
    (hk : Kept t.self t.host.disk (current.toList ++ (front ++ (run ++ back) ++ [])))
    (hwriter : t.self.writer = s.self.writer)
    (hleft : Disk.Within (Halted s.self (current.toList ++ (front ++ (run ++ back) ++ []))
      s.host.disk t.host.disk) s.host.disk t.host.disk) :
    Prepared s t (front ++ (run ++ back)) current
      ⟨output, size, (run.map Volume.segment).reverse, []⟩ front run back newest none := by
  have hranked : Segment.Ranked ((front ++ ([] ++ back) ++ current.toList).map Volume.segment) := by
    refine h.ranked.sublist (List.Sublist.map _ ?_)
    refine List.Sublist.append_right ?_ _
    exact List.Sublist.append_left (List.sublist_append_right ..) _
  exact ⟨rfl, ⟨w, hlast, hw⟩, rfl, hroom, hf, hrel, hindex, by simp, by simp,
    h.replaced hk hwriter (by simp) hranked, hleft⟩

theorem Shelved.prepared_some (h : Shelved s.self s.host.disk (front ++ (run ++ back)) [] current)
    (hlast : run.getLast? = some w) (hw : w.segment.footer = some newest)
    (hroom : s.self.nextIndex.toNat < Location.maxSegments) (hf : Follows 1 s.self t.self)
    {moves : List Relocation} (hmoves : moves ≠ [])
    (hrel : Relocates run [out] newest.minKey newest.maxKey moves)
    (hindex : output.index = s.self.nextIndex) (houtput : out.segment.index = s.self.nextIndex)
    (hout : Merged run newest out)
    (hk : Kept t.self t.host.disk (out :: (current.toList ++ (front ++ (run ++ back) ++ []))))
    (hwriter : t.self.writer = s.self.writer)
    (hleft : Disk.Within (Halted s.self (current.toList ++ (front ++ (run ++ back) ++ []))
      s.host.disk t.host.disk) s.host.disk t.host.disk) :
    Prepared s t (front ++ (run ++ back)) current
      ⟨output, size, (run.map Volume.segment).reverse, moves⟩ front run back newest (some out) := by
  have hlt : w.segment.index.toNat < out.segment.index.toNat := by
    rw [houtput]
    exact h.kept.holds.index_lt w (by simp [List.mem_of_getLast? hlast])
  have hranked : Segment.Ranked
      ((front ++ ([out] ++ back) ++ current.toList).map Volume.segment) := by
    have hr := h.ranked
    rw [List.append_assoc, List.append_assoc] at hr ⊢
    exact Segment.Ranked.replace hr hlast hw hout hlt
  have hcomplete : ∀ o ∈ [out], o.segment.isComplete := by
    obtain ⟨f, hfooter, -⟩ := hout.footer
    intro o ho
    rw [List.mem_singleton.mp ho, Segment.isComplete, hfooter]
    rfl
  refine ⟨rfl, ⟨w, hlast, hw⟩, rfl, hroom, hf, hrel, hindex, ?_, by simp [hmoves],
    h.replaced hk hwriter hcomplete hranked, hleft⟩
  intro o ho
  cases ho
  exact ⟨hout, houtput⟩

end Prepared

/-- A merge of a run fails and nothing is lost, or it is prepared. -/
theorem Shelved.mergeRun_cases (h : Shelved s.self s.host.disk (front ++ (run ++ back)) [] current)
    {w : Volume} (hlast : run.getLast? = some w) (hw : w.segment.footer = some newest)
    (hnext : s.self.nextIndex.toNat + 1 < 0x100000000) :
    (∃ e s', mergeRun (run.map Volume.segment) newest s = (.error e, s') ∧
      Follows 1 s.self s'.self ∧ Shelved s'.self s'.host.disk (front ++ (run ++ back)) [] current ∧
      (e = .indicesExhausted ↔ Location.maxSegments ≤ s.self.nextIndex.toNat) ∧
      ((∃ t, createSegment s = (.error e, t)) ∨ e = .segmentFull s.self.nextIndex ∧
        Location.maxOffset < Volume.survivingSize newest.minKey newest.maxKey run) ∧
      Disk.Within (Halted s.self (current.toList ++ (front ++ (run ++ back) ++ [])) s.host.disk
        s'.host.disk) s.host.disk s'.host.disk) ∨
    ∃ m out s', mergeRun (run.map Volume.segment) newest s = (.ok m, s') ∧
      Prepared s s' (front ++ (run ++ back)) current m front run back newest out := by
  have hmem {u : Volume} (hu : u ∈ run) :
      u ∈ current.toList ++ (front ++ (run ++ back) ++ []) ∧ u.segment.isComplete :=
    ⟨by simp [hu], h.complete u (by simp [hu])⟩
  have hcreated := brief_createSegment s
  rcases h.kept.createSegment_cases hnext with ⟨e, s1, hcreate, hself, hk, he⟩ |
    ⟨out, s1, hcreate, hempty, hopen, hindex, hmax, hself, hk⟩
  · rw [hcreate] at hcreated
    refine .inl ⟨e, s1, Task.bind_error hcreate, by rw [hself]; exact ⟨rfl, rfl, toNat_next hnext⟩,
      ⟨hk, h.complete, h.unfinished, by rw [hself]; exact h.writer, h.ranked⟩, he,
      .inl ⟨s1, hcreate⟩, hcreated.within.mono fun _ => .imp_right .inr⟩
  · have hwriter : s1.self.writer = s.self.writer := by rw [hself]; rfl
    have htentative : Tentative s1.self.directory s1.self.name =
        Tentative s.self.directory s.self.name := by rw [hself]; rfl
    rw [hcreate] at hcreated
    have hstarted (d : Disk) : Disk.Within (Halted s.self
        (current.toList ++ (front ++ (run ++ back) ++ [])) s.host.disk d) s.host.disk s1.host.disk :=
      hcreated.within.mono fun _ => .imp_right fun hs =>
        .inl (htentative ▸ hk.tentative hopen (by simp [hempty]) hs)
    have hfollows : Follows 1 s.self s1.self := by
      rw [hself]
      exact ⟨rfl, rfl, toNat_next hnext⟩
    have hfill := Kept.fillOutput_cases
      (s := announced s1 (run.map Volume.segment) newest out.segment) hk hempty hopen newest
      ((run.map Volume.segment).foldl
        (fun m s => min m ((s.footer.map Footer.mergedFrom).getD m)) newest.mergedFrom)
      fun u hu => hmem hu
    rw [announced_self, htentative] at hfill
    rcases hfill with ⟨out', s2, hgo, hself2, hseg, hk2, hsize, hleft⟩ |
      ⟨out', moves, s2, hgo, hcases, hk2⟩
    -- The output is full: it goes again, and the index is used up.
    · obtain ⟨s3, hremove, hself3, hk3⟩ := hk2.removeSegment_run
      rw [hseg] at hremove
      have hbrief := brief_removeSegment out.segment s2
      rw [hremove] at hbrief
      refine .inl ⟨.segmentFull out.segment.index, s3,
        mergeRun_of_error hcreate hgo (by simp) hremove, ?_, ⟨hk3, h.complete, h.unfinished, ?_,
          h.ranked⟩, iff_of_false (by simp) (Nat.not_le.mpr hmax), .inr ⟨by rw [hindex], hsize⟩,
        (hstarted _).trans ((hleft.mono fun _ he => .inr (.inl he)).trans
          (hbrief.within.mono fun _ he => .inr (he.imp_left hleft.last)))⟩
      · rw [hself3, hself2]
        exact ⟨hfollows.directory, hfollows.name, hfollows.nextIndex⟩
      · rw [hself3, hself2]
        exact hwriter.trans h.writer
    · right
      rcases hcases with ⟨rfl, hself2, hseg, hrel, hleft⟩ |
        ⟨hne, f, hself2, hseg, hmerged, hminKey, hmaxKey, hgen, horigin, hrel, hleft⟩
      -- Nothing survives: there is no output, but the inputs are to go.
      · obtain ⟨s3, hremove, hself3, hk3⟩ := hk2.removeSegment_run
        rw [hseg] at hremove
        have hbrief := brief_removeSegment out.segment s2
        rw [hremove] at hbrief
        refine ⟨_, none, s3, mergeRun_of_no_moves hcreate hgo hremove,
          h.prepared_none hlast hw hmax ?_ hrel hindex hk3 (by rw [hself3, hself2]; exact hwriter)
            ((hstarted _).trans ((hleft.mono fun _ he => .inr (.inl he)).trans
              (hbrief.within.mono fun _ he => .inr (he.imp_left hleft.last))))⟩
        rw [hself3, hself2]
        exact ⟨hfollows.directory, hfollows.name, hfollows.nextIndex⟩
      · have hout : Merged run newest out' :=
          .of_footer (fun u hu => (hmem hu).2) (List.mem_of_getLast? hlast) hw
            (by rw [hseg] : out'.segment.footer = some f) hmerged hminKey hmaxKey hgen horigin
        have houtput : out'.segment.index = s.self.nextIndex := by rw [hseg]; exact hindex
        refine ⟨_, some out', s2, mergeRun_of_moves hcreate hgo hne hk2.syncDirectory_run,
          h.prepared_some hlast hw hmax ?_ hne hrel hindex houtput hout hk2
            (by rw [hself2]; exact hwriter) ((hstarted _).trans (hleft.mono fun _ => .inr))⟩
        rw [hself2]
        exact ⟨hfollows.directory, hfollows.name, hfollows.nextIndex⟩

end Archive

end MeteredStorage
