import MeteredStorage.Proofs.Archive.Containing
import MeteredStorage.Proofs.Archive.Locating
import MeteredStorage.Proofs.Archive.Recovery

namespace MeteredStorage

open MeteredStorage.Task (Ensures Upholds)

namespace Record

variable {rs : List Record} {n : Nat}

theorem sizeAll_of_size (h : ∀ r ∈ rs, r.size = n) : sizeAll rs = n * rs.length := by
  induction rs with
  | nil => rfl
  | cons r rs ih =>
      rw [sizeAll, h r (List.mem_cons_self ..), ih fun s hs => h s (List.mem_cons_of_mem _ hs),
        List.length_cons, Nat.mul_succ, Nat.add_comm]

end Record

/-- A location at which a record can begin where all records have size `n`. -/
def Aligned (n : Nat) (location : Int64) : Prop := n ∣ Location.offset location

namespace Volume

variable {v : Volume} {d : Disk} {n room offset : Nat}

theorem Stored.aligned (hv : v.Stored d) (hs : ∀ r ∈ v.records, r.size = n) {e : Entry}
    (he : e ∈ v.entries) : Aligned n e.location := by
  obtain ⟨p, hp, rfl⟩ := mem_entries.mp he
  obtain ⟨before, after, hr, ho⟩ := Record.mem_place hp
  rw [Aligned, Location.offset_pack hv.index_lt (hv.offset_lt hp), ho, Nat.zero_add,
    Record.sizeAll_of_size fun r hr' => hs r (by rw [hr]; exact List.mem_append_left _ hr')]
  exact Nat.dvd_mul_right ..

theorem Stored.not_serves (hv : v.Stored d) (ho : v.dataSize ≤ offset) {part : Part} {bytes : Bytes} :
    ¬v.segment.Serves d offset part room bytes := by
  intro h
  cases hf : v.segment.footer with
  | none =>
      have hlength : (d.content v.segment.slot).length = v.dataSize := by
        rw [hv.content, Volume.bytes, hf, List.append_nil, Record.length_encodeAll, dataSize]
      have hheader := h.header
      rw [Record.headerSize] at hheader
      omega
  | some f =>
      have hinside := h.inside f hf
      rw [(hv.footer f hf).dataSize, Record.headerSize] at hinside
      omega

/-- What is read at a multiple of the size of its records is the data of one of them. -/
theorem Stored.data_of_serves (hv : v.Stored d) (hs : ∀ r ∈ v.records, r.size = n) (ho : n ∣ offset)
    {bytes : Bytes} (h : v.segment.Serves d offset .data room bytes) :
    ∃ r ∈ v.records, bytes = r.data := by
  obtain ⟨k, rfl⟩ := ho
  by_cases hk : k < v.records.length
  · obtain ⟨front, r, back, hsplit, hlength⟩ : ∃ front r back, v.records = front ++ r :: back ∧
        front.length = k :=
      ⟨v.records.take k, v.records[k], v.records.drop (k + 1),
        by rw [List.getElem_cons_drop, List.take_append_drop],
        List.length_take_of_le (Nat.le_of_lt hk)⟩
    have hp : ⟨r, n * k⟩ ∈ Record.place 0 v.records := by
      rw [hsplit, Record.place_append, Nat.zero_add, Record.sizeAll_of_size, hlength]
      · exact List.mem_append_right _ (List.mem_cons_self ..)
      · exact fun r hr => hs r (by rw [hsplit]; exact List.mem_append_left _ hr)
    have hread := Segment.read_eq_ok_iff.mpr h
    rw [hv.read_eq hp] at hread
    split at hread
    · cases hread
    · exact ⟨r, by rw [hsplit]; simp, (Except.ok.inj hread).symm⟩
  · refine absurd h (hv.not_serves ?_)
    rw [dataSize, Record.sizeAll_of_size hs]
    exact Nat.mul_le_mul_left n (Nat.le_of_not_lt hk)

end Volume

namespace Archive

structure Furnished (name : String) (p : Record → Prop) (vs : List Volume) (s : Hosted Archive) :
    Prop where
  name : s.self.name = name
  contains : Contains s.self s.host.disk vs
  records : ∀ v ∈ vs, ∀ r ∈ v.records, p r
  writer : ∀ w ∈ s.self.writer, ∃ v ∈ vs, v.segment.footer = none ∧ w = v.writer

/-- All records of the archive are `p`, and it has the completed segments `held`. -/
def Houses (name : String) (p : Record → Prop) (held : List Segment) (s : Hosted Archive) : Prop :=
  ∃ vs, Furnished name p vs s ∧ held.Nodup ∧ ∀ x ∈ held, ∃ v ∈ vs, v.segment = x ∧ x.isComplete

variable {name : String} {p : Record → Prop} {held : List Segment} {us vs ws : List Volume} {n : Nat}
  {s t : Hosted Archive} {r : Record} {x : Segment} {location : Int64} {host : Host}

theorem Houses.same (h : Houses name p held s) (hr : Retains s.self t.self)
    (hseg : t.self.segments = s.self.segments) (hdisk : t.host.disk = s.host.disk) :
    Houses name p held t := by
  obtain ⟨vs, hvs, hheld⟩ := h
  refine ⟨vs, ⟨hr.name.trans hvs.name, ?_, hvs.records, hr.writer ▸ hvs.writer⟩, hheld⟩
  rw [hdisk]
  exact hvs.contains.congr hr.directory hr.name hseg

theorem Houses.home (h : Houses name p held s) :
    ∃ n, s.host.disk.find s.self.directory = .ok (some (.directory n)) := by
  obtain ⟨vs, h, -⟩ := h
  exact h.contains.holds.home

theorem Houses.forget (h : Houses name p held s) : Houses name p [] s := by
  obtain ⟨vs, hvs, -⟩ := h
  exact ⟨vs, hvs, List.Pairwise.nil, by simp⟩

/-- Volumes may be added, and completed ones removed. -/
theorem Furnished.changed (h : Furnished name p vs s) (hr : Retains s.self t.self)
    (hc : Contains t.self t.host.disk ws) (hrecords : ∀ v ∈ ws, ∀ r ∈ v.records, p r)
    (hsub : ∀ v ∈ vs, v.segment.footer = none → v ∈ ws) : Furnished name p ws t where
  name := hr.name.trans h.name
  contains := hc
  records := hrecords
  writer w hw := by
    rw [hr.writer] at hw
    obtain ⟨v, hv, hopen, he⟩ := h.writer w hw
    exact ⟨v, hsub v hv hopen, hopen, he⟩

theorem upholds_startWriting : Upholds (Houses name p held) (fun _ => True) startWriting := by
  refine Ensures.of_cases fun s hs => ?_
  obtain ⟨vs, h, hn, hheld⟩ := id hs
  cases hw : s.self.writer with
  | some w => exact .inr ⟨.sessionActive, s, by simp [startWriting, hw], hs⟩
  | none =>
      rcases h.contains.createSegment_cases with ⟨e, s', hrun, hr, hc⟩ |
        ⟨v, s', hrun, hempty, hopen, hr, hc⟩
      · refine .inr ⟨e, s', by simp [startWriting, hw, hrun], vs, ?_, hn, hheld⟩
        exact h.changed hr hc h.records fun v hv _ => hv
      · refine .inl ⟨(), _, by simp [startWriting, hw, hrun]; rfl, ⟨v :: vs, ?_, hn, ?_⟩, trivial⟩
        · refine ⟨hr.name.trans h.name, hc.congr rfl rfl rfl, fun u hu r hr => ?_, fun w hw => ?_⟩
          · rcases List.mem_cons.mp hu with rfl | hu
            · rw [hempty] at hr
              cases hr
            · exact h.records u hu r hr
          · cases hw
            refine ⟨v, List.mem_cons_self .., hopen, ?_⟩
            simp [Volume.writer, Volume.dataSize, hempty, Record.sizeAll]
        · intro x hx
          obtain ⟨u, hu, hux⟩ := hheld x hx
          exact ⟨u, List.mem_cons_of_mem _ hu, hux⟩

/-- The held segments are not the one that is being written, whatever becomes of it. -/
theorem held_of_perm {v : Volume} (hp : vs.Perm (v :: ws)) (hopen : v.segment.footer = none)
    (hheld : ∀ x ∈ held, ∃ v ∈ vs, v.segment = x ∧ x.isComplete) (w : Volume) :
    ∀ x ∈ held, ∃ v ∈ w :: ws, v.segment = x ∧ x.isComplete := by
  intro x hx
  obtain ⟨u, hu, rfl, hc⟩ := hheld x hx
  rcases List.mem_cons.mp (hp.mem_iff.mp hu) with rfl | hu
  · rw [Segment.isComplete, hopen] at hc
    cases hc
  · exact ⟨u, List.mem_cons_of_mem _ hu, rfl, hc⟩

theorem Furnished.records_cons {v w : Volume} (h : Furnished name p vs s) (hp : vs.Perm (v :: ws))
    (hw : ∀ r ∈ w.records, p r) : ∀ u ∈ w :: ws, ∀ r ∈ u.records, p r := by
  intro u hu
  rcases List.mem_cons.mp hu with rfl | hu
  · exact hw
  · exact h.records u (hp.mem_iff.mpr (List.mem_cons_of_mem _ hu))

theorem exists_perm_cons {α : Type} {a : α} {l : List α} (h : a ∈ l) : ∃ rest, l.Perm (a :: rest) := by
  obtain ⟨front, back, rfl⟩ := List.append_of_mem h
  exact ⟨front ++ back, List.perm_middle⟩

theorem upholds_store (hp : ∀ r, p r → r.size = n) (hr : p r) :
    Upholds (Houses name p held) (Aligned n) (store r) := by
  refine Ensures.of_cases fun s hs => ?_
  obtain ⟨vs, h, hn, hheld⟩ := id hs
  cases hw : s.self.writer with
  | none => exact .inr ⟨.noSession, s, by simp [store, hw], hs⟩
  | some w =>
      obtain ⟨v, hv, hopen, rfl⟩ := h.writer w hw
      have hstored := h.contains.holds.stored v hv
      rcases store_cases_of_writer hw hstored.index_lt r with ⟨e, hrun, -⟩ | ⟨hfits, hroom, hrun⟩
      · exact .inr ⟨e, s, hrun, hs⟩
      obtain ⟨ws, hperm⟩ := exists_perm_cons hv
      have hsizes : ∀ r ∈ v.records, r.size = n := fun r hr => hp r (h.records v hv r hr)
      have hoffset : v.dataSize < Location.maxOffset := by
        have := r.size_pos
        omega
      refine .inl ⟨_, _, hrun, ⟨v.push r :: ws, ?_, hn, held_of_perm hperm hopen hheld _⟩, ?_⟩
      · refine ⟨h.name, (Kept.append (h.contains.perm hperm) hopen hfits hroom).congr rfl rfl rfl rfl,
          h.records_cons hperm fun q hq => ?_, fun w hw => ?_⟩
        · rcases List.mem_append.mp hq with hq | hq
          · exact h.records v hv q hq
          · rwa [List.mem_singleton.mp hq]
        · cases hw
          exact ⟨v.push r, List.mem_cons_self .., hopen, rfl⟩
      · rw [Aligned, Location.offset_pack hstored.index_lt hoffset, Volume.dataSize,
          Record.sizeAll_of_size hsizes]
        exact Nat.dvd_mul_right ..

theorem upholds_endWriting (minKey maxKey : Int64) :
    Upholds (Houses name p held) (fun _ => True) (endWriting minKey maxKey) := by
  refine Ensures.of_cases fun s hs => ?_
  obtain ⟨vs, h, hn, hheld⟩ := id hs
  cases hw : s.self.writer with
  | none => exact .inr ⟨.noSession, s, by simp [endWriting, hw], hs⟩
  | some w =>
      obtain ⟨v, hv, hopen, rfl⟩ := h.writer w hw
      obtain ⟨ws, hperm⟩ := exists_perm_cons hv
      let f := sessionFooter v.writer s.host.clock minKey maxKey
      let taken : Hosted Archive := { s with self := { s.self with writer := none } }
      obtain ⟨s', hrun, hr, hc⟩ := Contains.finishSegment_run (s := taken) (f := f)
        ((h.contains.perm hperm).congr rfl rfl rfl) hopen
        (describes_sessionFooter (h.contains.holds.stored v hv) s.host.clock minKey maxKey)
      have hsync := hc.syncDirectory_run
      have hfinish : finishSegment v.writer.segment (sessionFooter v.writer s.host.clock minKey maxKey)
          { s with self := { s.self with writer := none } } = (.ok (), s') := hrun
      refine .inl ⟨(), ⟨s'.self, { s'.host with
        events := .sessionCompleted v.segment.index v.records.length f.size :: s'.host.events }⟩, ?_,
        ⟨v.finished f :: ws, ?_, hn, held_of_perm hperm hopen hheld _⟩, trivial⟩
      · simp only [endWriting, Task.bind_run, Task.get_run, hw, Hosted.update_run, hfinish, hsync,
          Hosted.report_run]
        rfl
      · refine ⟨hr.name.trans h.name, hc, h.records_cons hperm (h.records v hv), fun w hw => ?_⟩
        rw [hr.writer] at hw
        cases hw

/-- A merge holds its inputs, and moves records to where records can begin. -/
theorem ensures_prepareMerge (hp : ∀ r, p r → r.size = n) (files : List Segment) :
    Ensures (Houses name p [])
      (fun m s => Houses name p ((m.map Merge.inputs).getD []) s ∧
        ∀ merge, m = some merge → ∀ move ∈ merge.moves, Aligned n move.target)
      (fun _ => Houses name p []) (prepareMerge files) := by
  refine Ensures.of_cases fun s hs => ?_
  obtain ⟨vs, h, -⟩ := id hs
  rcases h.contains.prepareMerge_cases files with ⟨r, s', hrun, hnone, hr, hc⟩ |
    ⟨m, us, outs, s', minKey, maxKey, hrun, hr, hc, hinputs, hnodup, hus, hrel⟩
  · have hs' : Houses name p [] s' :=
      ⟨vs, h.changed hr hc h.records fun v hv _ => hv, List.Pairwise.nil, by simp⟩
    match r with
    | .error e => exact .inr ⟨e, s', hrun, hs'⟩
    | .ok none => exact .inl ⟨none, s', hrun, hs', nofun⟩
    | .ok (some m) => exact absurd rfl (hnone m)
  have hcopied : ∀ o ∈ outs, ∀ r ∈ o.records, p r := by
    intro o ho r hr
    rw [← o.map_entries] at hr
    obtain ⟨e, he, rfl⟩ := List.mem_map.mp hr
    obtain ⟨e', he', heq⟩ := hrel.copied e (Volume.mem_allEntries.mpr ⟨o, ho, he⟩)
    obtain ⟨u, hu, heu⟩ := Volume.mem_allEntries.mp he'
    rw [← heq]
    refine h.records u (hus u hu).1 _ ?_
    rw [← u.map_entries]
    exact List.mem_map_of_mem heu
  refine .inl ⟨some m, s', hrun, ⟨outs ++ vs, h.changed hr hc ?_ fun v hv _ =>
    List.mem_append_right _ hv, hinputs.nodup_iff.mpr hnodup, fun x hx => ?_⟩, ?_⟩
  · intro v hv
    rcases List.mem_append.mp hv with hv | hv
    · exact hcopied v hv
    · exact h.records v hv
  · obtain ⟨u, hu, rfl⟩ := List.mem_map.mp (hinputs.mem_iff.mp hx)
    exact ⟨u, List.mem_append_right _ (hus u hu).1, rfl, (hus u hu).2⟩
  · rintro _ ⟨⟩ move hmove
    have hmem : (move.key, move.target) ∈ m.moves.map fun m => (m.key, m.target) :=
      List.mem_map_of_mem hmove
    rw [← hrel.targets] at hmem
    obtain ⟨e, he, heq⟩ := List.mem_map.mp hmem
    obtain ⟨o, ho, heo⟩ := Volume.mem_allEntries.mp he
    have htarget : e.location = move.target := congrArg Prod.snd heq
    rw [← htarget]
    exact (hc.holds.stored o (List.mem_append_left _ ho)).aligned
      (fun r hr => hp r (hcopied o ho r hr)) heo

theorem ensures_removeSegment :
    Ensures (Houses name p (x :: held)) (fun _ => Houses name p held)
      (fun _ => Houses name p held) (removeSegment x) := by
  refine Ensures.of_cases fun s hs => ?_
  obtain ⟨vs, h, hnodup, hheld⟩ := hs
  obtain ⟨v, hv, rfl, hcomplete⟩ := hheld x (List.mem_cons_self ..)
  obtain ⟨hnot, hn⟩ := List.nodup_cons.mp hnodup
  obtain ⟨ws, hperm⟩ := exists_perm_cons hv
  obtain ⟨s', hrun, hr, hc⟩ := (h.contains.perm hperm).removeSegment_run
  refine .inl ⟨(), s', hrun, ws, h.changed hr hc (fun u hu => ?_) fun u hu hopen => ?_, hn,
    fun x hx => ?_⟩
  · exact h.records u (hperm.mem_iff.mpr (List.mem_cons_of_mem _ hu))
  · rcases List.mem_cons.mp (hperm.mem_iff.mp hu) with rfl | hu
    · rw [Segment.isComplete, hopen] at hcomplete
      cases hcomplete
    · exact hu
  · obtain ⟨u, hu, rfl, huc⟩ := hheld x (List.mem_cons_of_mem _ hx)
    rcases List.mem_cons.mp (hperm.mem_iff.mp hu) with rfl | hu
    · exact absurd hx hnot
    · exact ⟨u, hu, rfl, huc⟩

theorem upholds_syncDirectory : Upholds (Houses name p held) (fun _ => True) syncDirectory := by
  refine Ensures.of_cases fun s hs => ?_
  obtain ⟨vs, h, -⟩ := id hs
  exact .inl ⟨(), s, h.contains.syncDirectory_run, hs, trivial⟩

theorem upholds_concludeMerge (m : Merge) :
    Upholds (Houses name p held) (fun _ => True) (concludeMerge m) := by
  refine upholds_syncDirectory.then fun _ _ => Upholds.then (Q := fun _ => True) ?_ fun _ _ => ?_
  · exact fun s hs => ⟨hs.same ⟨rfl, rfl, rfl⟩ rfl rfl, trivial⟩
  · exact fun s hs => ⟨hs.same ⟨rfl, rfl, rfl⟩ rfl rfl, trivial⟩

theorem upholds_close : Upholds (Houses name p held) (fun _ => True) close := by
  refine Upholds.get fun s _ => ?_
  dsimp only
  split
  · refine Upholds.then (Q := fun _ => True) ?_ fun _ _ => Upholds.then (Q := fun _ => True) ?_
      fun _ _ => upholds_syncDirectory
    · rintro t ⟨vs, h, hheld⟩
      exact ⟨⟨vs, ⟨h.name, h.contains.congr rfl rfl rfl, h.records, nofun⟩, hheld⟩, trivial⟩
    · exact fun s hs => ⟨hs.same ⟨rfl, rfl, rfl⟩ rfl rfl, trivial⟩
  · exact upholds_syncDirectory

/-- Whichever segment a location leads to by now, what is read at it is the data of a record. -/
theorem Houses.fetch (h : Houses name p held s) (hp : ∀ r, p r → r.size = n)
    (hl : Aligned n location) {room : Nat} {bytes : Bytes}
    (hgo : s.self.fetch s.host.disk location .data room = .ok bytes) : ∃ r, p r ∧ bytes = r.data := by
  obtain ⟨vs, h, -⟩ := h
  obtain ⟨index, x, -, hx, hserves⟩ := fetch_eq_ok_iff.mp hgo
  obtain ⟨v, hv, rfl⟩ := h.contains.holds.mem_segments.mp (List.mem_of_find?_eq_some hx)
  obtain ⟨r, hr, he⟩ := (h.contains.holds.stored v hv).data_of_serves
    (fun r hr => hp r (h.records v hv r hr)) hl hserves
  exact ⟨r, h.records v hv r hr, he⟩

theorem Houses.replay_run (h : Houses name p held s) (hp : ∀ r, p r → r.size = n) :
    ∃ es : List Entry, s.self.replay s.host.disk =
        (es.map fun e => (e.record.key, e.location), .ok ()) ∧
      ∀ e ∈ es, p e.record ∧ Aligned n e.location ∧ ∀ room, e.record.data.length ≤ room →
        s.self.fetch s.host.disk e.location .data room = .ok e.record.data := by
  obtain ⟨vs, h, -⟩ := h
  obtain ⟨line, hreplay, hmem⟩ := h.contains.replay_run
  refine ⟨Volume.allEntries line, hreplay, fun e he => ?_⟩
  obtain ⟨v, hv, hev⟩ := Volume.mem_allEntries.mp he
  have hvs := (hmem v hv).1
  refine ⟨h.records v hvs _ ?_, ?_, fun room hroom => h.contains.holds.fetch hvs hev .data hroom⟩
  · rw [← v.map_entries]
    exact List.mem_map_of_mem hev
  · exact (h.contains.holds.stored v hvs).aligned (fun r hr => hp r (h.records v hvs r hr)) hev

theorem records_of_shut {v : Volume} (hp : (ws.map Volume.shut).Perm (us.map Volume.shut))
    (hv : v ∈ ws) : ∃ u ∈ us, v.records = u.records := by
  obtain ⟨u, hu, he⟩ := List.mem_map.mp (hp.mem_iff.mp (List.mem_map_of_mem hv))
  exact ⟨u, hu, (congrArg Volume.records he).symm⟩

/-- An archive that is opened again has only records that it had. -/
theorem Houses.init_run (h : Houses name p held s)
    (htorn : ∀ rs index, (∀ r ∈ rs, p r) →
      Segment.completeFooter? index (Record.encodeAll rs) = .ok none)
    (hd : host.disk = s.host.disk) :
    ∃ a host', init s.self.directory name host = (.ok a, host') ∧ a.directory = s.self.directory ∧
      Houses name p [] ⟨a, host'⟩ := by
  obtain ⟨vs, h, -⟩ := h
  obtain ⟨n, hfiled⟩ := Kept.filed h.contains
  replace hfiled : Filed s.self.directory name n host.disk vs := by
    rw [hd, ← h.name]
    exact hfiled
  have hhouses {a : Archive} {host' : Host} {ws : List Volume} (hname : a.name = name)
      (hw : a.writer = none) (hk : Kept a host'.disk ws)
      (hsub : ∀ w ∈ ws, ∃ v ∈ vs, w.records = v.records) : Houses name p [] ⟨a, host'⟩ := by
    refine ⟨ws, ⟨hname, hk.contains, fun w hws r hr => ?_, ?_⟩, List.Pairwise.nil, by simp⟩
    · obtain ⟨v, hv, he⟩ := hsub w hws
      exact h.records v hv r (he ▸ hr)
    · rw [hw]
      nofun
  by_cases hn : SegmentName.Plain name
  · obtain ⟨a, host', ws, hinit, hdir, hname, hw, -, hk, hp⟩ := hfiled.init_run hn fun v hv => by
      cases hf : v.segment.footer with
      | some f => exact .inl (by rw [Segment.isComplete, hf]; rfl)
      | none =>
          rw [(hfiled.stored v hv).content, Volume.bytes, hf, List.append_nil]
          exact .inr (htorn _ _ (h.records v hv))
    refine ⟨a, host', hinit, hdir, hhouses hname hw hk fun w hws => ?_⟩
    obtain ⟨v, hv, he⟩ := records_of_shut hp hws
    exact ⟨v, (List.mem_filter.mp (List.mem_filter.mp hv).1).1, he⟩
  · obtain ⟨a, host', hinit, hdir, hname, hw, -, hk⟩ := hfiled.init_foreign hn
    exact ⟨a, host', hinit, hdir, hhouses hname hw hk (by simp)⟩

theorem houses_of_vacant {directory : Path} (h : host.disk.Vacant directory) (name : String)
    (p : Record → Prop) : ∃ a host', init directory name host = (.ok a, host') ∧
      a.directory = directory ∧ Houses name p [] ⟨a, host'⟩ := by
  obtain ⟨a, host', hinit, hdir, hname, -, hs⟩ := init_of_vacant h name
  refine ⟨a, host', hinit, hdir, [], ⟨hname, hs.kept.contains, by simp, ?_⟩, List.Pairwise.nil, by simp⟩
  have hw : a.writer = none := hs.writer
  rw [hw]
  nofun

end Archive

end MeteredStorage
