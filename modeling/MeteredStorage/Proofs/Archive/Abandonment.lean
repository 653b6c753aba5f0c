import MeteredStorage.Proofs.Archive.Generations

namespace MeteredStorage

theorem Segment.read_shut (s : Segment) (d : Disk) (offset : Nat) (part : Part) (room : Nat) :
    s.shut.read d offset part room = s.read d offset part room := rfl

namespace Archive

def storeAll : List Record → ArchiveTask (List Record)
  | [] => return []
  | r :: rs => do
    match ← (store r).attempt with
    | .ok _ => return r :: (← storeAll rs)
    | .error _ => storeAll rs

variable {s s' t : Hosted Archive} {line line' : List Volume} {v : Volume} {directory : Path}
  {name : String}

/-- What a session stores comes to the end of its volume. -/
theorem Shelved.storeAll_run (h : Shelved s.self s.host.disk line [] (some v)) (rs : List Record) :
    ∃ s' v' kept, storeAll rs s = (.ok kept, s') ∧ kept.Sublist rs ∧ v'.segment = v.segment ∧
      v'.records = v.records ++ kept ∧ Follows 0 s.self s'.self ∧
      Shelved s'.self s'.host.disk line [] (some v') := by
  induction rs generalizing s v with
  | nil => exact ⟨s, v, [], rfl, List.Sublist.refl _, rfl, (List.append_nil _).symm, .refl _, h⟩
  | cons r rs ih =>
      simp only [storeAll, Task.bind_run, Task.attempt_run]
      rcases h.store_cases r with ⟨e, hgo, -⟩ | ⟨u, s1, hu, -, -, hgo, hf, hs⟩
      · obtain ⟨s2, v2, kept, hrun, hkept, hrest⟩ := ih h
        simp only [hgo]
        exact ⟨s2, v2, kept, hrun, hkept.cons r, hrest⟩
      · cases hu
        obtain ⟨s2, v2, kept, hrun, hkept, hseg, hrecords, hf2, hs2⟩ := ih hs
        simp only [hgo, Task.bind_run, hrun, Task.pure_run]
        refine ⟨s2, v2, r :: kept, rfl, hkept.cons_cons r, hseg, ?_, hf.trans hf2, hs2⟩
        rw [hrecords, Volume.push, List.append_assoc, List.singleton_append]

theorem store_run {w : Writer} {r : Record} (hw : s.self.writer = some w)
    (hindex : w.segment.index.toNat < Location.maxSegments)
    (hroom : w.offset + r.size ≤ Location.maxOffset) (hfits : r.Fits) :
    (store r s).1 = .ok (Location.pack w.segment.index w.offset) := by
  have hoffset : w.offset < Location.maxOffset := by
    have := r.size_pos
    omega
  have hlocation : w.segment.locationOf w.offset =
      .ok (Location.pack w.segment.index w.offset) := by
    rw [Segment.locationOf, Location.encode?_eq hindex hoffset]
  simp only [store, Task.bind_run, Task.get_run, hw, if_neg (Nat.not_lt.mpr hroom),
    if_neg (Nat.not_le.mpr hfits), Task.pure_run, hlocation, Task.ofExcept_ok, Segment.append,
    Hosted.onDisk_run, Disk.perform_run]
  rfl

/-- An archive with the same volumes, seen through other openings, gives the same answers. -/
theorem Shelved.fetch_eq (hs : Shelved s.self s.host.disk line [] none)
    (ht : Shelved t.self t.host.disk line' [] none)
    (hline : line'.map Volume.shut = line.map Volume.shut) (location : Int64) (part : Part)
    (room : Nat) :
    t.self.fetch t.host.disk location part room = s.self.fetch s.host.disk location part room := by
  cases hl : Location.segment? location with
  | none => simp only [Archive.fetch, hl]
  | some index =>
      have hmem {a : Archive} {d : Disk} {vs : List Volume} (ha : Shelved a d vs [] none)
          {v : Volume} : v ∈ (none : Option Volume).toList ++ (vs ++ []) ↔ v ∈ vs := by simp
      by_cases hsome : ∃ v ∈ line, v.segment.index = index
      · obtain ⟨v, hv, rfl⟩ := hsome
        obtain ⟨u, hu, he⟩ := List.mem_map.mp (hline ▸ List.mem_map_of_mem (f := Volume.shut) hv)
        have hseg : u.segment.shut = v.segment.shut := congrArg Volume.segment he
        have hindex : u.segment.index = v.segment.index := (congrArg Segment.index hseg :)
        have hus := ht.kept.holds.segment?_eq ((hmem ht).mpr hu)
        rw [hindex] at hus
        rw [fetch_of_segment hl hus, fetch_of_segment hl (hs.kept.holds.segment?_eq ((hmem hs).mpr hv)),
          ← Segment.read_shut, hseg, Segment.read_shut]
        refine Segment.read_congr ?_ ..
        have hcontent := ((ht.mem_line hu).1.held 0).content
        have hshut : u.held 0 = v.held 0 := he
        rw [hshut] at hcontent
        rw [(hs.mem_line hv).1.content]
        exact hcontent
      · have hgone {w : Volume} (hw : w ∈ line') : w.segment.index ≠ index := fun he => by
          obtain ⟨v, hv, hvs⟩ := List.mem_map.mp (hline ▸ List.mem_map_of_mem (f := Volume.shut) hw)
          have hindex : v.segment.index = w.segment.index :=
            (congrArg (fun u : Volume => u.segment.index) hvs :)
          exact hsome ⟨v, hv, hindex.trans he⟩
        rw [fetch_of_missing hl (ht.kept.holds.segment?_eq_none fun w hw => hgone ((hmem ht).mp hw)),
          fetch_of_missing hl (hs.kept.holds.segment?_eq_none fun w hw he =>
            hsome ⟨w, (hmem hs).mp hw, he⟩)]

theorem Housed.gone {d : Disk} {n : Nat} {index : UInt32} (h : Housed directory name d n line)
    (hn : SegmentName.Plain name) (hline : ∀ v ∈ line, v.segment.index ≠ index) (slot : Nat) :
    ¬ d.HasFile (Path.join directory (SegmentName.ofIndex name index)) slot := by
  rintro ⟨trail, file, ht, hm⟩
  obtain ⟨reached, he, hnumber⟩ := target_home h.home hn ht
  cases he
  subst hnumber
  have hentry := Disk.mem_of_node? (Disk.meaning_eq_ok hm).2
  have hlisted : ⟨SegmentName.ofIndex name index, slot, index⟩ ∈
      ListedFile.all name (d.entries (Trail.number trail)) := by
    refine List.mem_filterMap.mpr ⟨_, hentry, ?_⟩
    simp [ListedFile.listed?, Trail.place, SegmentName.index?_ofIndex]
  obtain ⟨v, hv, hlisting⟩ := List.mem_map.mp ((h.listed hn).mem_iff.mp hlisted)
  exact hline v hv (congrArg ListedFile.index hlisting)

/-- The segments that an opening leaves: those that no other one covers. -/
def standing (ss : List Segment) : List Segment := ss.filter fun x => !isCovered ss x

theorem standing_perm {ss ts : List Segment} (h : ss.Perm ts) : (standing ss).Perm (standing ts) := by
  refine (h.filter _).trans (List.Perm.of_eq (List.filter_congr fun x _ => ?_))
  rw [isCovered_perm h]

theorem map_standing_shut (ss : List Segment) :
    (standing ss).map Segment.shut = standing (ss.map Segment.shut) := by
  rw [standing, standing, List.filter_map]
  refine congrArg _ (List.filter_congr fun x _ => ?_)
  simp only [isCovered, Function.comp_apply, List.any_map]
  rfl

theorem Volume.taken_footed {d : Disk} {vs : List Volume}
    (h : ∀ v ∈ vs, v.Stored d ∧ v.segment.isComplete) :
    (Volume.footed d vs).map Volume.taken = vs := by
  induction vs with
  | nil => rfl
  | cons v vs ih =>
      obtain ⟨hv, hc⟩ := h v (List.mem_cons_self ..)
      obtain ⟨f, hf⟩ := Option.isSome_iff_exists.mp hc
      have hlook : v.footer? d = some f := by
        rw [Volume.footer?, hv.completeFooter?_eq hf]
        rfl
      rw [Volume.footed_cons, hlook, List.map_append, ih fun u hu => h u (List.mem_cons_of_mem _ hu)]
      exact congrArg (· :: vs) (Volume.taken_eq hf)

/-- A file that ends in a footer is taken for the file of a completed segment. -/
theorem Shelved.init_taken (h : Shelved s.self s.host.disk line [] (some v)) {host : Host} {f : Footer}
    (hn : SegmentName.Plain s.self.name) (hd : host.disk = s.host.disk)
    (hf : Segment.completeFooter? v.segment.index (s.host.disk.content v.segment.slot) = .ok (some f)) :
    ∃ a host', init s.self.directory s.self.name host = (.ok a, host') ∧
      (a.segments.map Segment.shut).Perm
        ((standing ({ v.segment with footer := some f } :: s.self.completed)).map Segment.shut) := by
  obtain ⟨n, hfiled⟩ := h.kept.filed
  rw [List.append_nil, Option.toList_some, List.singleton_append, ← hd] at hfiled
  rcases hfiled.init_cases hn with ⟨e, host', u, e', -, hu, he⟩ |
    ⟨a, host', finds, hinit, -, -, -, -, ho, hp, -⟩
  · rw [hd] at he
    rcases List.mem_cons.mp hu with rfl | hu
    · rw [hf] at he
      cases he
    · obtain ⟨hstored, hc⟩ := h.mem_line hu
      obtain ⟨g, hg⟩ := Option.isSome_iff_exists.mp hc
      rw [hstored.completeFooter?_eq hg] at he
      cases he
  · have hlook : v.footer? host.disk = some f := by
      rw [Volume.footer?, hd, hf]
      rfl
    have hfooted : (Volume.footed host.disk (v :: line)).map Volume.taken = v.finished f :: line := by
      rw [Volume.footed_cons, hlook, List.map_append, hd, Volume.taken_footed fun u => h.mem_line]
      rfl
    have hfinds : ((finds.map Volume.taken).map Volume.segment).map Segment.shut |>.Perm
        (((v.finished f :: line).map Volume.segment).map Segment.shut) := by
      have htaken := hp.map fun p => (Volume.taken p).segment
      rw [← hfooted]
      simp only [List.map_map] at htaken ⊢
      exact htaken
    have htable : a.segments.Perm (standing ((finds.map Volume.taken).map Volume.segment)) := by
      refine ho.table.trans (List.Perm.of_eq ?_)
      rw [List.nil_append, standing, List.filter_map, List.filter_map, untouched]
      rfl
    refine ⟨a, host', hinit, (htable.map _).trans ?_⟩
    rw [map_standing_shut, map_standing_shut, h.completed_eq]
    exact standing_perm hfinds

/-- A file whose end is a footer out of range cannot be opened. -/
theorem Shelved.init_broken (h : Shelved s.self s.host.disk line [] (some v)) {host : Host}
    {e : ArchiveError} (hn : SegmentName.Plain s.self.name) (hd : host.disk = s.host.disk)
    (he : Segment.completeFooter? v.segment.index (s.host.disk.content v.segment.slot) = .error e) :
    ∃ e' host', init s.self.directory s.self.name host = (.error e', host') := by
  obtain ⟨n, hfiled⟩ := h.kept.filed
  rw [← hd] at hfiled
  rcases hfiled.init_cases hn with ⟨e', host', u, -, hinit, -⟩ |
    ⟨a, host', finds, -, -, -, -, -, -, -, hsound⟩
  · exact ⟨e', host', hinit⟩
  · exact absurd (hd ▸ he) (hsound v (List.mem_append_left _ (by simp)) e)

/--
A session that is given up, by a close or by no more than going away. The next opening of the
directory judges its file by the last page of what was stored. If that is no footer, the file goes
and all else is as before the session. If the caller has stored a footer of the right size there,
the file is taken for that of a completed segment, and what it covers goes. Before the session no
index was refused and no reopening met another session that looked completed.
-/
theorem Run.abandoned_session (hr : Run directory name s h) (hn : SegmentName.Plain name)
    (hstart : startWriting s = (.ok (), t)) (rs : List Record) :
    ∃ w kept u, t.self.writer = some w ∧ storeAll rs t = (.ok kept, u) ∧ kept.Sublist rs ∧
      u.host.disk.content w.segment.slot = Record.encodeAll kept ∧
      (∃ c, close u = (.ok (), c) ∧ c.host.disk = u.host.disk) ∧
      ∀ host, host.disk = u.host.disk →
        match Segment.completeFooter? w.segment.index (Record.encodeAll kept) with
        | .ok none => ∃ a host', init s.self.directory s.self.name host = (.ok a, host') ∧
            Restored s ⟨a, host'⟩ ∧ (∀ slot, ¬ host'.disk.HasFile w.segment.path slot) ∧
            ∀ location part room, a.fetch host'.disk location part room =
              s.self.fetch s.host.disk location part room
        | .ok (some f) => ∃ a host', init s.self.directory s.self.name host = (.ok a, host') ∧
            (a.segments.map Segment.shut).Perm
              ((standing ({ w.segment with footer := some f } :: s.self.completed)).map Segment.shut)
        | .error _ => ∃ e host', init s.self.directory s.self.name host = (.error e, host') := by
  obtain ⟨hname, line, current, htracks⟩ := hr.tracks hn
  have hs := htracks.shelved
  cases current with
  | some v =>
      -- A session was open already, and the start would have been refused.
      have hw : s.self.writer = some v.writer := hs.writer
      have hgo : startWriting s = (.error .sessionActive, s) := by simp [startWriting, hw]
      rw [hgo] at hstart
      cases hstart
  | none =>
      rcases hs.startWriting_cases htracks.no_wrap with ⟨e, s1, hgo, -⟩ |
        ⟨v, t', hgo, hempty, -, -, hft, ht⟩
      · rw [hgo] at hstart
        cases hstart
      rw [hgo] at hstart
      cases hstart
      obtain ⟨u, v', kept, hrun, hsub, hseg, hrecords, hfu, hu⟩ := ht.storeAll_run rs
      obtain ⟨c, hclose, -, hcdisk, -⟩ := hu.close_run
      have hdirectory : u.self.directory = s.self.directory := hfu.directory.trans hft.directory
      have hsame : u.self.name = s.self.name := hfu.name.trans hft.name
      have hplain : SegmentName.Plain u.self.name := hsame ▸ hname.symm ▸ hn
      have hstored := hu.kept.holds.stored v' (List.mem_append_left _ (by simp))
      have hcontent : u.host.disk.content v'.segment.slot = Record.encodeAll kept := by
        rw [hstored.content, Volume.bytes, hu.unfinished v' rfl, hrecords, hempty, List.append_nil,
          List.nil_append]
      refine ⟨v.writer, kept, u, ht.writer, hrun, hsub, ?_, ⟨c, hclose, hcdisk⟩, fun host hd => ?_⟩
      · rw [Volume.writer, ← hseg]
        exact hcontent
      rw [← hdirectory, ← hsame, Volume.writer, ← hseg]
      split
      · rename_i hnone
        have htorn : LeavesTorn u := fun w hw => by
          rw [hu.writer] at hw
          cases hw
          exact hcontent ▸ hnone
        obtain ⟨a, host', line', hinit, hdir', hname', -, hline, ha⟩ := hu.init_run hplain htorn hd
        refine ⟨a, host', hinit, hs.restored ha hline, fun slot => ?_, fun location part room =>
          hs.fetch_eq (t := ⟨a, host'⟩) ha hline location part room⟩
        -- No volume that is left has the index of the session, so its name is free.
        obtain ⟨n, hhoused⟩ := ha.kept.housed
        have hpath : v'.segment.path = Path.join a.directory (SegmentName.ofIndex a.name v'.segment.index) := by
          rw [hdir', hname']
          exact hu.kept.holds.path v' (List.mem_append_left _ (by simp))
        refine hpath ▸ hhoused.gone (hname' ▸ hplain) (fun x hx he => ?_) slot
        have hshut : x.shut ∈ line.map Volume.shut := hline ▸ List.mem_map_of_mem (by simpa using hx)
        obtain ⟨y, hy, hyx⟩ := List.mem_map.mp hshut
        have hindex : y.segment.index = x.segment.index :=
          (congrArg (fun z : Volume => z.segment.index) hyx :)
        have hapart := (List.pairwise_append.mp hu.kept.holds.apart).2.2 v' (by simp) y (by simp [hy])
        exact hapart.index (he.symm.trans hindex.symm)
      · rename_i f hsome
        obtain ⟨a, host', hinit, hp⟩ := hu.init_taken hplain hd (hcontent ▸ hsome)
        refine ⟨a, host', hinit, ?_⟩
        rw [hs.completed_eq, ← hu.completed_eq]
        exact hp
      · rename_i e he
        exact hu.init_broken hplain hd (hcontent ▸ he)

def forgedFooter : Footer := ⟨1, 1, 0, 0, 0, 0, 0, 4096, true⟩

def forgedRecord : Record := ⟨8, Bytes.zeros 4084 ++ forgedFooter.encode⟩

theorem length_forgedRecord : forgedRecord.data.length = 8180 := by
  rw [forgedRecord, List.length_append, Bytes.length_zeros, Footer.length_encode, pageSize]

theorem completeFooter?_forged :
    Segment.completeFooter? 1 (Record.encodeAll [forgedRecord]) = .ok (some forgedFooter) := by
  have hencode : Record.encodeAll [forgedRecord] = (BigEndian.ofInt64 8 ++
      BigEndian.ofWord32 (UInt32.ofNat forgedRecord.data.length) ++ Bytes.zeros 4084) ++
      forgedFooter.encode := by
    rw [Record.encodeAll, List.flatMap_singleton, Record.encode, List.append_assoc (_ ++ _)]
    rfl
  have hlength : (BigEndian.ofInt64 8 ++
      BigEndian.ofWord32 (UInt32.ofNat forgedRecord.data.length) ++ Bytes.zeros 4084).length =
      4096 := by
    rw [List.length_append, List.length_append, BigEndian.length_ofInt64,
      BigEndian.length_ofWord32, Bytes.length_zeros]
  rw [hencode]
  exact Segment.completeFooter?_append rfl (by rw [hlength]; rfl) (by rw [hlength]; decide)

/-- The file of a session that is given up takes the place of all completed segments. -/
theorem abandoned_forged_session :
    ∃ s t u h a host', Run [] "x" s h ∧ s.self.completed.map (·.index) = [0] ∧
      startWriting s = (.ok (), t) ∧ storeAll [forgedRecord] t = (.ok [forgedRecord], u) ∧
      init s.self.directory s.self.name u.host = (.ok a, host') ∧ a.segments.map (·.index) = [1] := by
  have hcheck : (scenario "x" [.start, .store ⟨7, [1]⟩, .finish 0 10]).any fun s =>
      s.self.completed.map (·.index) == [0] && (startWriting s).1.toOption.isSome &&
        (startWriting s).2.self.writer.any fun w => w.segment.index == 1 && w.offset == 0 &&
          (standing ({ w.segment with footer := some forgedFooter } :: s.self.completed)).map
            (·.index) == [1] := by
    decide +kernel
  obtain ⟨s, hs, hgo⟩ := (Option.any_eq_true ..).mp hcheck
  rw [Bool.and_eq_true, Bool.and_eq_true, beq_iff_eq] at hgo
  obtain ⟨⟨hcompleted, hok⟩, hgo⟩ := hgo
  have hlength := length_forgedRecord
  have hforged := completeFooter?_forged
  -- What the record holds is large and does not matter any more.
  generalize forgedRecord = r at hlength hforged ⊢
  rcases hstart : startWriting s with ⟨r', t⟩
  rw [hstart] at hok hgo
  cases r' with
  | error e => cases hok
  | ok _ =>
      obtain ⟨w, kept, u, hw, hrun, -, -, -, hopen⟩ :=
        Run.abandoned_session (run_of_scenario hs) (by decide) hstart [r]
      rw [hw, Option.any_some, Bool.and_eq_true, Bool.and_eq_true, beq_iff_eq, beq_iff_eq, beq_iff_eq] at hgo
      obtain ⟨⟨hindex, hoffset⟩, hstanding⟩ := hgo
      have hstored : (storeAll [r] t).1 = .ok [r] := by
        have hok : (store r t).1 = .ok (Location.pack w.segment.index w.offset) :=
          store_run hw (by rw [hindex]; decide) (by rw [hoffset, Record.size, hlength]; decide)
            (by rw [Record.Fits, hlength]; decide)
        simp [storeAll, hok]
      rw [hrun] at hstored
      obtain rfl : kept = [r] := Except.ok.inj hstored
      have hend := hopen u.host rfl
      rw [hindex, hforged] at hend
      obtain ⟨a, host', hinit, hp⟩ := hend
      refine ⟨s, t, u, _, a, host', run_of_scenario hs, hcompleted, hstart, hrun, hinit, ?_⟩
      have hindices := hp.map Segment.index
      rw [List.map_map, List.map_map] at hindices
      exact List.perm_singleton.mp (hindices.trans (List.Perm.of_eq hstanding))

end Archive

end MeteredStorage
