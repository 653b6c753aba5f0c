import MeteredStorage.Proofs.PagedMap.Rebuilding

namespace MeteredStorage

theorem Footer.decode_eq_none {page : Bytes} (h : BigEndian.toWord32 (page.take 4) ≠ Footer.magic) :
    Footer.decode page = none := by
  simp [Footer.decode, h]

/-- Pages that follow one another are not taken for a completed segment. -/
theorem Segment.completeFooter?_of_paged {rs : List Record} (h : ∀ r ∈ rs, r.Paged) (index : UInt32) :
    Segment.completeFooter? index (Record.encodeAll rs) = .ok none := by
  rcases List.eq_nil_or_concat rs with rfl | ⟨front, r, rfl⟩
  · rfl
  · obtain ⟨hlength, hunmarked⟩ := h r (by simp)
    have hbytes : Record.encodeAll (front.concat r) = Record.encodeAll front ++
        (BigEndian.ofInt64 r.key ++ BigEndian.ofWord32 (UInt32.ofNat r.data.length)) ++ r.data := by
      rw [List.concat_eq_append, Record.encodeAll_append, List.append_assoc]
      exact congrArg _ (List.append_nil _)
    have hlast : (Record.encodeAll (front.concat r)).drop
        ((Record.encodeAll (front.concat r)).length - pageSize) = r.data := by
      rw [hbytes, List.length_append, hlength, Nat.add_sub_cancel]
      exact List.drop_left
    unfold Segment.completeFooter?
    simp only [hlast, Footer.decode_eq_none hunmarked]
    split <;> rfl

variable {K : Type} [FixedKey K] {s t : MapState K} {k k' : Stock} {base versions : Versions K}
  {d : Dimensions} {directory : Path} {name : String} {mapSize : UInt64} {host : Host} {e : Disk}

/--
The volumes on the disk are complete or hold nothing but pages, and those that no other one covers
make up a line that shows the versions.
-/
def Recoverable (d : Dimensions) (directory : Path) (name : String) (versions : Versions K)
    (e : Disk) : Prop :=
  ∃ n vs line, Archive.Filed directory name n e vs ∧
    (∀ v ∈ vs, v.segment.isComplete ∨ (v.segment.footer = none ∧ ∀ r ∈ v.records, r.Paged)) ∧
    (Archive.uncovered (vs.filter (·.segment.isComplete))).Perm line ∧
    Segment.Ranked (line.map Volume.segment) ∧ Exhibits d line versions

structure Belongs (directory : Path) (name : String) (mapSize : UInt64) (s : MapState K) : Prop where
  directory : s.self.archive.directory = directory
  name : s.self.archive.name = name
  dimensions : PagedMap.dimensionsFor K mapSize = .ok s.self.dimensions

theorem Belongs.remains (h : Belongs directory name mapSize s) (hr : Remains s t) :
    Belongs directory name mapSize t where
  directory := hr.directory.trans h.directory
  name := hr.archiveName.trans h.name
  dimensions := by rw [h.dimensions, hr.dimensions]

theorem Recoverable.init_run (h : Recoverable d directory name versions host.disk)
    (hn : SegmentName.Plain name) (hd : PagedMap.dimensionsFor K mapSize = .ok d) :
    ∃ m host' line, PagedMap.init K directory name mapSize host = (.ok m, host') ∧
      m.dimensions = d ∧ Belongs directory name mapSize ⟨m, host'⟩ ∧
      Idle ⟨m, host'⟩ line versions := by
  obtain ⟨n, vs, line, hfiled, hvolumes, hline, hranked, hexhibits⟩ := h
  obtain ⟨a, host1, ws, hinit, hdir, hname, hwriter, -, hkept, hp⟩ := hfiled.init_run hn
    fun v hv => (hvolumes v hv).imp_right fun ⟨hopen, hpaged⟩ => by
      rw [(hfiled.stored v hv).content, Volume.bytes, hopen, List.append_nil]
      exact Segment.completeFooter?_of_paged hpaged _
  have hcomplete : ∀ v ∈ line, v.segment.isComplete := by
    intro v hv
    exact (List.mem_filter.mp (List.mem_filter.mp (hline.mem_iff.mpr hv)).1).2
  obtain ⟨line', hshut, hs⟩ :=
    Archive.Shelved.of_kept hkept (hp.trans (hline.map _)) hwriter hcomplete hranked
  obtain ⟨host2, hrun, hdisk⟩ := PagedMap.init_run hinit hs hdir hd
  rw [← hdisk] at hs
  exact ⟨_, host2, line', hrun, rfl, ⟨hdir, hname, hd⟩,
    .rebuilt hname hd hs (hexhibits.shut hshut)⟩

namespace Indexed

variable [DecidableEq K] [LawfulKey K]

theorem paged_records (h : Indexed s k versions) {v : Volume} (hv : v ∈ k.volumes) :
    ∀ r ∈ v.records, r.Paged := by
  intro r hr
  rw [← v.map_entries] at hr
  obtain ⟨entry, hentry, rfl⟩ := List.mem_map.mp hr
  exact h.paged entry (Volume.mem_allEntries.mpr ⟨v, hv, hentry⟩)

/-- What the line shows can be recovered, whatever lies beside it without a footer. -/
theorem recoverable (h : Indexed s k versions)
    (hline : Shows s.self.dimensions (Volume.allEntries k.line) base) {n : Nat} (outs : List Volume)
    (hfiled : Archive.Filed directory name n e (outs ++ k.volumes))
    (houts : ∀ o ∈ outs, o.segment.footer = none ∧ ∀ r ∈ o.records, r.Paged) :
    Recoverable s.self.dimensions directory name base e := by
  -- What a merge has replaced is covered by its output, or tells the same.
  obtain ⟨line', hp, hranked, hlatest⟩ := h.outdated.restored k.old (List.Sublist.refl _)
  have hsub : line' ⊆ k.line ++ k.old := fun v hv => (List.mem_filter.mp (hp.mem_iff.mpr hv)).1
  refine ⟨n, outs ++ k.volumes, line', hfiled, fun v hv => ?_, ?_, hranked, ?_, ?_, ?_⟩
  · rcases List.mem_append.mp hv with hv | hv
    · exact .inr (houts v hv)
    · have hrecords := h.paged_records hv
      rcases List.mem_append.mp hv with hv | hv
      · exact .inr ⟨h.shelved.unfinished v (Option.mem_toList.mp hv), hrecords⟩
      · exact .inl (h.shelved.complete v hv)
  · have hnone : outs.filter (·.segment.isComplete) = [] := by
      refine List.filter_eq_nil_iff.mpr fun o ho => ?_
      simp [Segment.isComplete, (houts o ho).1]
    rw [List.filter_append, hnone, List.nil_append, Stock.volumes, h.shelved.filter_complete]
    exact hp
  · exact fun v hv => h.points.ranges v (hsub hv)
  · refine hline.congr fun b hb => ?_
    rw [hlatest _ (pageKey_bucketKey h.shaped.buckets_le hb)]
  · refine fun entry hentry => h.pages entry (Volume.allEntries_mono ?_ hentry)
    exact fun v hv => List.mem_append_right _ (hsub hv)

theorem recoverable_same (h : Indexed s k versions)
    (hline : Shows s.self.dimensions (Volume.allEntries k.line) base)
    (hs : Disk.Same s.host.disk e) :
    Recoverable s.self.dimensions s.self.archive.directory s.self.archive.name base e := by
  obtain ⟨n, hfiled⟩ := h.shelved.kept.filed
  exact h.recoverable hline [] (hfiled.same hs) (by simp)

theorem recoverable_tentative (h : Indexed s k versions)
    (hline : Shows s.self.dimensions (Volume.allEntries k.line) base)
    (ht : Archive.Tentative directory name k.volumes e) :
    Recoverable s.self.dimensions directory name base e := by
  obtain ⟨out, n, hopen, hfrom, hfiled⟩ := ht
  refine h.recoverable hline [out] hfiled fun o ho => ?_
  rw [List.mem_singleton.mp ho]
  refine ⟨hopen, fun r hr => ?_⟩
  obtain ⟨u, hu, hru⟩ := hfrom r hr
  exact h.paged_records hu r hru

end Indexed

def Agree [DecidableEq K] (s t : MapState K) : Prop :=
  ∀ key notFound, ∃ value, (PagedMap.find key notFound s).1 = .ok value ∧
    (PagedMap.find key notFound t).1 = .ok value

theorem Agree.toOption_eq [DecidableEq K] (h : Agree s t) (key : K) (notFound : Int64) :
    (PagedMap.find key notFound s).1.toOption = (PagedMap.find key notFound t).1.toOption := by
  obtain ⟨value, hs, ht⟩ := h key notFound
  rw [hs, ht]

theorem Indexed.agree [DecidableEq K] [LawfulKey K] (h : Indexed s k versions)
    (h' : Indexed t k' versions) (hd : t.self.dimensions = s.self.dimensions) : Agree s t := by
  intro key notFound
  obtain ⟨s', hs, -⟩ := h.find_run key notFound
  obtain ⟨t', ht, -⟩ := h'.find_run key notFound
  have hplace : t.self.place key = s.self.place key := by
    rw [PagedMap.place, PagedMap.place, hd]
  rw [hplace] at ht
  exact ⟨_, by rw [hs], by rw [ht]⟩

end MeteredStorage
