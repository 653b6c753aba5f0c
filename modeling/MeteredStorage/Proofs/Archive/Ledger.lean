import MeteredStorage.Proofs.Archive.Owning
import MeteredStorage.Proofs.Archive.Recency
import MeteredStorage.Proofs.Archive.Tracing

namespace MeteredStorage

namespace Volume

theorem Stored.locations_nodup {d : Disk} {v : Volume} (h : v.Stored d) :
    (v.entries.map Entry.location).Nodup := by
  rw [entries, List.map_map]
  refine List.pairwise_map.mpr ((Record.place_offsets_lt 0 v.records).imp_of_mem
    fun hp hq hlt he => ?_)
  have ho := congrArg Location.offset he
  simp only [Function.comp_apply, Location.offset_pack h.index_lt (h.offset_lt hp),
    Location.offset_pack h.index_lt (h.offset_lt hq)] at ho
  omega

theorem locations_nodup {d : Disk} {vs : List Volume} (hs : ∀ v ∈ vs, v.Stored d)
    (ha : vs.Pairwise Apart) : ((allEntries vs).map Entry.location).Nodup := by
  induction vs with
  | nil => exact List.Pairwise.nil
  | cons v vs ih =>
      obtain ⟨hfirst, hrest⟩ := List.pairwise_cons.mp ha
      have hv := hs v (List.mem_cons_self ..)
      rw [allEntries, List.flatMap_cons, List.map_append, List.nodup_append]
      refine ⟨hv.locations_nodup, ih (fun u hu => hs u (List.mem_cons_of_mem _ hu)) hrest, ?_⟩
      intro l hl k hk he
      obtain ⟨e, hve, rfl⟩ := List.mem_map.mp hl
      obtain ⟨f, hf, rfl⟩ := List.mem_map.mp hk
      obtain ⟨u, hu, huf⟩ := mem_allEntries.mp hf
      have hindex := (hs u (List.mem_cons_of_mem _ hu)).location huf
      rw [← he, (hv.location hve).1] at hindex
      exact (hfirst u hu).index (Option.some.inj hindex.1)

end Volume

namespace Archive

/-- What an archive has told since it was opened. -/
structure Ledger where
  /-- The records that were stored or moved, at the locations that were told. -/
  issued : List Entry := []
  /-- The merge in progress, -/
  merging : Option Merge := none
  /-- and its inputs that are still to be removed. -/
  inputs : List Segment := []
  /-- The segments that were removed as inputs of a merge. -/
  removed : List UInt32 := []

/-- What may be done with an open archive. A merge is done in steps, between which others come. -/
inductive Deed
  | start
  | store (r : Record)
  | finish (minKey maxKey : Int64)
  | prepare (files : List Segment)
  | remove
  | conclude
  /-- The one who asked for the merge fails. -/
  | abandon
  | read (location : Int64) (part : Part) (buffer : Bytes)
  | wait (clock : UInt64)
  deriving DecidableEq

def moved (s : Hosted Archive) (m : Relocation) : Entry :=
  ⟨⟨m.key, (s.self.fetch s.host.disk m.source .data 0x100000000).toOption.getD []⟩, m.target⟩

def Deed.run (l : Ledger) : Deed → ArchiveTask Ledger
  | start => do
    startWriting
    return l
  | store r => do
    let location ← Archive.store r
    return { l with issued := l.issued ++ [⟨r, location⟩] }
  | finish minKey maxKey => do
    endWriting minKey maxKey
    return l
  | prepare files => do
    if l.merging.isSome then return l
    let s ← get
    match ← prepareMerge files with
    | none => return l
    | some m =>
      return { l with
        issued := l.issued ++ m.moves.map (moved s)
        merging := some m
        inputs := m.inputs }
  | remove =>
    match l.inputs with
    | [] => return l
    | x :: rest => do
      removeSegment x
      return { l with inputs := rest, removed := l.removed ++ [x.index] }
  | conclude =>
    match l.merging, l.inputs with
    | some m, [] => do
      concludeMerge m
      return { l with merging := none }
    | _, _ => return l
  | abandon => return { l with merging := none, inputs := [] }
  | read location part buffer => do
    let _ ← readInto location part buffer
    return l
  | wait clock => do
    modify fun s => { s with host := { s.host with clock := clock } }
    return l

/--
An archive that was opened on a directory of its volumes, complete or not, and used since, with the
ledger of what it told. A deed may fail, but not for want of an index.
-/
inductive Issues (directory : Path) (name : String) : Hosted Archive → Ledger → Prop
  | opened {n : Nat} {host host' : Host} {vs : List Volume} {a : Archive}
      (hf : Filed directory name n host.disk vs) (h : init directory name host = (.ok a, host')) :
      Issues directory name ⟨a, host'⟩ {}
  | done {s s' : Hosted Archive} {l : Ledger} {deed : Deed} {r : Except ArchiveError Ledger}
      (hi : Issues directory name s l) (h : deed.run l s = (r, s'))
      (hr : r ≠ .error .indicesExhausted) : Issues directory name s' (r.toOption.getD l)

/-- The ledger is borne out by the volumes that the archive has of its own. -/
structure Backed (s : Hosted Archive) (l : Ledger) (own : List Volume)
    (finds : List (Volume × Footer)) : Prop where
  owns : Owns s.self s.host.disk own finds
  room : s.self.nextIndex.toNat ≤ Location.maxSegments
  writer : ∀ w ∈ s.self.writer, ∃ v ∈ own, v.segment.footer = none ∧ v.writer = w
  distinct : (l.issued.map Entry.location).Nodup
  issued : ∀ e ∈ l.issued, e ∈ Volume.allEntries own ∨
    ∃ index ∈ l.removed, Location.segment? e.location = some index
  removed : ∀ index ∈ l.removed, index.toNat < s.self.nextIndex.toNat ∧
    ∀ v ∈ own ++ finds.map Prod.fst, v.segment.index ≠ index
  inputs : ∀ x ∈ l.inputs, x ∈ s.self.segments ∧ x.isComplete
  apart : (l.inputs.map Segment.index).Nodup

variable {s s' : Hosted Archive} {l l' : Ledger} {own own' : List Volume}
  {finds : List (Volume × Footer)} {v : Volume} {a : Archive} {d : Disk} {x : Segment}
  {directory : Path} {name : String}

theorem Owns.perm (h : Owns a d own finds) (hp : own.Perm own') : Owns a d own' finds :=
  ⟨(h.kept.perm (hp.append_right _)).tabled rfl rfl rfl, h.table.trans ((hp.append_right _).map _)⟩

theorem Owns.locations_nodup (h : Owns a d own finds) :
    ((Volume.allEntries own).map Entry.location).Nodup :=
  Volume.locations_nodup (fun v hv => h.kept.holds.stored v (List.mem_append_left _ hv))
    (List.pairwise_append.mp h.kept.holds.apart).1

theorem Owns.location (h : Owns a d own finds) {e : Entry} (he : e ∈ Volume.allEntries own) :
    ∃ v ∈ own, Location.segment? e.location = some v.segment.index := by
  obtain ⟨v, hv, hve⟩ := Volume.mem_allEntries.mp he
  exact ⟨v, hv, ((h.kept.holds.stored v (List.mem_append_left _ hv)).location hve).1⟩

theorem Backed.no_wrap (h : Backed s l own finds) : s.self.nextIndex.toNat + 1 < 0x100000000 := by
  have hroom := h.room
  rw [Location.maxSegments_eq] at hroom
  omega

theorem Backed.perm (h : Backed s l own finds) (hp : own.Perm own') : Backed s l own' finds where
  owns := h.owns.perm hp
  room := h.room
  writer w hw := by
    obtain ⟨v, hv, hrest⟩ := h.writer w hw
    exact ⟨v, hp.mem_iff.mp hv, hrest⟩
  distinct := h.distinct
  issued e he := by
    refine (h.issued e he).imp_left fun hm => ?_
    obtain ⟨v, hv, hve⟩ := Volume.mem_allEntries.mp hm
    exact Volume.mem_allEntries.mpr ⟨v, hp.mem_iff.mp hv, hve⟩
  removed index hi := by
    refine ⟨(h.removed index hi).1, fun v hv => (h.removed index hi).2 v ?_⟩
    exact ((hp.append_right _).mem_iff).mpr hv
  inputs := h.inputs
  apart := h.apart

/-- A step that changes neither the table nor the disk, nor the session. -/
theorem Backed.congr (h : Backed s l own finds) (hdisk : s'.host.disk = s.host.disk)
    (hdir : s'.self.directory = s.self.directory) (hname : s'.self.name = s.self.name)
    (hseg : s'.self.segments = s.self.segments) (hnext : s'.self.nextIndex = s.self.nextIndex)
    (hwriter : s'.self.writer = s.self.writer) : Backed s' l own finds where
  owns := hdisk ▸ h.owns.congr hdir hname hseg hnext
  room := hnext ▸ h.room
  writer := hwriter ▸ h.writer
  distinct := h.distinct
  issued := h.issued
  removed := hnext ▸ h.removed
  inputs := hseg ▸ h.inputs
  apart := h.apart

theorem Backed.issue (h : Backed s l own finds) (ho : Owns s'.self s'.host.disk own' finds)
    {new : List Entry}
    (hp : (Volume.allEntries own').Perm (Volume.allEntries own ++ new))
    (hindex : ∀ index ∈ l.removed, ∀ v ∈ own', v.segment.index ≠ index) :
    ((l.issued ++ new).map Entry.location).Nodup ∧ ∀ e ∈ l.issued ++ new,
      e ∈ Volume.allEntries own' ∨ ∃ index ∈ l.removed, Location.segment? e.location = some index := by
  have hnodup := (hp.map Entry.location).nodup_iff.mp ho.locations_nodup
  rw [List.map_append, List.nodup_append] at hnodup
  obtain ⟨-, hnew, hdisjoint⟩ := hnodup
  constructor
  · rw [List.map_append, List.nodup_append]
    refine ⟨h.distinct, hnew, fun k hk m hm he => ?_⟩
    obtain ⟨e, hissued, rfl⟩ := List.mem_map.mp hk
    rcases h.issued e hissued with hold | ⟨index, hi, hl⟩
    · exact hdisjoint _ (List.mem_map_of_mem hold) m hm he
    · obtain ⟨f, hf, rfl⟩ := List.mem_map.mp hm
      obtain ⟨v, hv, hv'⟩ := ho.location (hp.mem_iff.mpr (List.mem_append_right _ hf))
      rw [← he, hl] at hv'
      exact hindex index hi v hv (Option.some.inj hv').symm
  · intro e he
    rcases List.mem_append.mp he with he | he
    · exact (h.issued e he).imp_left fun hold => hp.mem_iff.mpr (List.mem_append_left _ hold)
    · exact .inl (hp.mem_iff.mpr (List.mem_append_right _ he))

theorem toNat_step (hnext : s.self.nextIndex.toNat + 1 < 0x100000000)
    (h : s'.self.nextIndex = s.self.nextIndex + 1) :
    s'.self.nextIndex.toNat = s.self.nextIndex.toNat + 1 := by
  rw [h]
  exact toNat_next hnext

theorem Backed.start (h : Backed s l own finds) {r : Except ArchiveError Unit}
    (hgo : startWriting s = (r, s')) (hr : r ≠ .error .indicesExhausted) :
    ∃ own', Backed s' l own' finds := by
  cases hw : s.self.writer with
  | some w =>
      simp only [startWriting, Task.bind_run, Task.get_run, hw, Option.isSome_some, if_true,
        Task.throw_run] at hgo
      cases hgo
      exact ⟨own, h⟩
  | none =>
      rcases h.owns.createSegment_cases h.no_wrap with ⟨e, s1, hcreate, hself, ho, hex⟩ |
        ⟨v, s1, hcreate, hempty, hopen, hindex, hmax, hself, -, ho⟩
      · have hrun : startWriting s = (.error e, s1) := by simp [startWriting, hw, hcreate]
        rw [hrun] at hgo
        cases hgo
        have hlt : s.self.nextIndex.toNat < Location.maxSegments :=
          Nat.lt_of_not_le fun hle => hr (by rw [hex.mpr hle])
        have hstep := toNat_step h.no_wrap
          (show s'.self.nextIndex = s.self.nextIndex + 1 by rw [hself])
        exact ⟨own, ho, by rw [hstep]; exact hlt, by rw [hself]; exact h.writer, h.distinct, h.issued,
          fun index hi => ⟨hstep ▸ Nat.lt_succ_of_lt (h.removed index hi).1, (h.removed index hi).2⟩,
          by rw [hself]; exact h.inputs, h.apart⟩
      · have hrun : startWriting s = (.ok (), { s1 with
            self := { s1.self with writer := some ⟨v.segment, 0, 0⟩ }
            host := { s1.host with
              events := .sessionStarted v.segment.index :: s1.host.events } }) := by
          simp [startWriting, hw, hcreate]
        rw [hrun] at hgo
        cases hgo
        have hstep := toNat_step h.no_wrap
          (show s1.self.nextIndex = s.self.nextIndex + 1 by rw [hself]; rfl)
        have hgone (index : UInt32) (hi : index ∈ l.removed) :
            index.toNat < s1.self.nextIndex.toNat ∧
              ∀ u ∈ v :: own ++ finds.map Prod.fst, u.segment.index ≠ index := by
          obtain ⟨hlt, hnone⟩ := h.removed index hi
          refine ⟨hstep ▸ Nat.lt_succ_of_lt hlt, fun u hu => ?_⟩
          rcases List.mem_cons.mp hu with rfl | hu
          · rw [hindex]
            exact fun he => Nat.ne_of_gt hlt (congrArg UInt32.toNat he)
          · exact hnone u hu
        have hentries : Volume.allEntries (v :: own) = Volume.allEntries own ++ [] := by
          rw [Volume.allEntries, List.flatMap_cons, Volume.entries, hempty, List.append_nil]
          rfl
        obtain ⟨-, hissued⟩ := h.issue ho (List.Perm.of_eq hentries) fun index hi u hu =>
          (hgone index hi).2 u (List.mem_append_left _ hu)
        rw [List.append_nil] at hissued
        refine ⟨v :: own, ho.congr rfl rfl rfl rfl, by rw [hstep]; exact hmax, fun w hw => ?_, h.distinct,
          hissued, hgone, fun x hx => ⟨?_, (h.inputs x hx).2⟩, h.apart⟩
        · cases hw
          refine ⟨v, List.mem_cons_self .., hopen, ?_⟩
          simp [Volume.writer, Volume.dataSize, hempty, Record.sizeAll]
        · have hsegments : s1.self.segments = enter s.self.segments v.segment := by
            rw [hself]
            rfl
          change x ∈ s1.self.segments
          rw [hsegments, (enter_perm fun y hy hi => ?_).mem_iff]
          · exact List.mem_cons_of_mem _ (h.inputs x hx).1
          · refine Nat.ne_of_lt (h.owns.index_lt hy) ?_
            rw [hi, hindex]

theorem Backed.writing (h : Backed s l own finds) {w : Writer} (hw : s.self.writer = some w) :
    ∃ v rest, own.Perm (v :: rest) ∧ v.segment.footer = none ∧ w = v.writer ∧
      Backed s l (v :: rest) finds := by
  obtain ⟨v, hv, hopen, hwriter⟩ := h.writer w hw
  obtain ⟨front, back, rfl⟩ := List.append_of_mem hv
  exact ⟨v, front ++ back, List.perm_middle, hopen, hwriter.symm, h.perm List.perm_middle⟩

theorem Backed.store (h : Backed s l own finds) (r : Record) :
    (∃ e, Archive.store r s = (.error e, s)) ∨ ∃ location s' own',
      Archive.store r s = (.ok location, s') ∧
      Backed s' { l with issued := l.issued ++ [⟨r, location⟩] } own' finds := by
  cases hw : s.self.writer with
  | none => exact .inl ⟨.noSession, by simp [Archive.store, hw]⟩
  | some w =>
      obtain ⟨v, rest, -, hopen, rfl, hv⟩ := h.writing hw
      have hstored := hv.owns.kept.holds.stored v (List.mem_cons_self ..)
      rcases store_cases_of_writer hw hstored.index_lt r with ⟨e, hrun, -⟩ | ⟨hfits, hroom, hrun⟩
      · exact .inl ⟨e, hrun⟩
      let location := Location.pack v.segment.index v.dataSize
      have ho : Owns (recorded s v r).self (recorded s v r).host.disk (v.push r :: rest) finds :=
        (hv.owns.append hopen hfits hroom).congr rfl rfl rfl rfl
      have hentries : (Volume.allEntries (v.push r :: rest)).Perm
          (Volume.allEntries (v :: rest) ++ [⟨r, location⟩]) := by
        simp only [Volume.allEntries, List.flatMap_cons, Volume.entries_push, List.append_assoc]
        exact List.perm_append_comm.append_left _
      have hgone : ∀ index ∈ l.removed, ∀ u ∈ v.push r :: rest, u.segment.index ≠ index := by
        intro index hi u hu
        have hnone := (hv.removed index hi).2
        rcases List.mem_cons.mp hu with rfl | hu
        · exact hnone v (List.mem_cons_self ..)
        · exact hnone u (List.mem_append_left _ (List.mem_cons_of_mem _ hu))
      obtain ⟨hdistinct, hissued⟩ := hv.issue ho hentries hgone
      refine .inr ⟨location, _, v.push r :: rest, hrun, ho, h.room, fun w hw => ?_, hdistinct, hissued,
        fun index hi => ⟨(h.removed index hi).1, fun u hu => ?_⟩, h.inputs, h.apart⟩
      · cases hw
        exact ⟨v.push r, List.mem_cons_self .., hopen, rfl⟩
      · rcases List.mem_append.mp hu with hu | hu
        · exact hgone index hi u hu
        · exact (hv.removed index hi).2 u (List.mem_append_right _ hu)

theorem Backed.finish (h : Backed s l own finds) {minKey maxKey : Int64}
    {r : Except ArchiveError Unit} (hgo : endWriting minKey maxKey s = (r, s')) :
    ∃ own', Backed s' l own' finds := by
  cases hw : s.self.writer with
  | none =>
      simp only [endWriting, Task.bind_run, Task.get_run, hw, Task.throw_run] at hgo
      cases hgo
      exact ⟨own, h⟩
  | some w =>
      obtain ⟨v, rest, -, hopen, rfl, hv⟩ := h.writing hw
      have hstored := hv.owns.kept.holds.stored v (List.mem_cons_self ..)
      let f := sessionFooter v.writer s.host.clock minKey maxKey
      let ended : Hosted Archive := { s with self := { s.self with writer := none } }
      have hfinish := finishSegment_run ended v.segment f
      have ho : Owns (ended.self.finished v.segment f) (s.host.disk.changed
          (.finish v.segment.slot (alignToPage f.dataSize.toNat) f.encode))
          (v.finished f :: rest) finds :=
        (hv.owns.finished hopen (describes_sessionFooter hstored s.host.clock minKey maxKey)).congr
          rfl rfl rfl rfl
      have hsync := Owns.syncDirectory_run (s := ⟨ended.self.finished v.segment f, { s.host with
        disk := s.host.disk.changed
          (.finish v.segment.slot (alignToPage f.dataSize.toNat) f.encode) }⟩) ho
      simp only [endWriting, Task.bind_run, Task.get_run, hw, Hosted.update_run] at hgo
      rw [show finishSegment v.writer.segment _ _ = _ from hfinish] at hgo
      simp only [ended] at hsync
      simp only [ended, hsync, Hosted.report_run] at hgo
      cases hgo
      refine ⟨v.finished f :: rest, ho.congr rfl rfl rfl rfl, h.room, by simp [Archive.finished],
        h.distinct, hv.issued, fun index hi => ⟨(h.removed index hi).1, fun u hu => ?_⟩,
        fun x hx => ⟨?_, (h.inputs x hx).2⟩, h.apart⟩
      · rcases List.mem_cons.mp hu with rfl | hu
        · exact (hv.removed index hi).2 v (List.mem_cons_self ..)
        · exact (hv.removed index hi).2 u (List.mem_cons_of_mem _ hu)
      · obtain ⟨hx, hc⟩ := h.inputs x hx
        exact List.mem_map.mpr ⟨x, hx, if_neg (hv.owns.apart hx (not_complete hopen hc)).2.2⟩

theorem Backed.remove (h : Backed s l own finds) {rest : List Segment}
    (hinputs : l.inputs = x :: rest) :
    ∃ s' own' finds', removeSegment x s = (.ok (), s') ∧
      Backed s' { l with inputs := rest, removed := l.removed ++ [x.index] } own' finds' := by
  obtain ⟨hx, hc⟩ := h.inputs x (hinputs ▸ List.mem_cons_self ..)
  obtain ⟨s1, hrun, hself, ho⟩ := h.owns.removeSegment_run hx
  have hapart := h.apart
  rw [hinputs, List.map_cons, List.nodup_cons] at hapart
  have hown {v : Volume} (hv : v ∈ own) (hne : v.segment.index ≠ x.index) :
      v ∈ own.filter (·.segment.index != x.index) := List.mem_filter.mpr ⟨hv, by simpa using hne⟩
  refine ⟨s1, _, _, hrun, ho, by rw [hself]; exact h.room, fun w hw => ?_, h.distinct, fun e he => ?_,
    fun index hi => ?_, fun y hy => ?_, hapart.2⟩
  · rw [hself] at hw
    obtain ⟨v, hv, hopen, hwriter⟩ := h.writer w hw
    refine ⟨v, hown hv fun he => ?_, hopen, hwriter⟩
    have hvs : v.segment ∈ s.self.segments :=
      h.owns.table.mem_iff.mpr (List.mem_map_of_mem (List.mem_append_left _ hv))
    have hfound := segment?_of_nodup h.owns.indices_nodup hvs
    rw [he, segment?_of_nodup h.owns.indices_nodup hx] at hfound
    exact not_complete hopen hc (Option.some.inj hfound)
  · rcases h.issued e he with hm | ⟨index, hi, hl⟩
    · obtain ⟨v, hv, hve⟩ := Volume.mem_allEntries.mp hm
      by_cases hindex : v.segment.index = x.index
      · have hstored := h.owns.kept.holds.stored v (List.mem_append_left _ hv)
        exact .inr ⟨x.index, List.mem_append_right _ (List.mem_singleton_self _),
          hindex ▸ (hstored.location hve).1⟩
      · exact .inl (Volume.mem_allEntries.mpr ⟨v, hown hv hindex, hve⟩)
    · exact .inr ⟨index, List.mem_append_left _ hi, hl⟩
  · have hnext : s1.self.nextIndex = s.self.nextIndex := by rw [hself]; rfl
    rw [hnext]
    rcases List.mem_append.mp hi with hi | hi
    · obtain ⟨hlt, hnone⟩ := h.removed index hi
      refine ⟨hlt, fun v hv => hnone v ?_⟩
      rcases List.mem_append.mp hv with hv | hv
      · exact List.mem_append_left _ (List.mem_filter.mp hv).1
      · obtain ⟨p, hp, rfl⟩ := List.mem_map.mp hv
        exact List.mem_append_right _ (List.mem_map_of_mem (List.mem_filter.mp hp).1)
    · rw [List.mem_singleton.mp hi]
      refine ⟨h.owns.index_lt hx, fun v hv => ?_⟩
      rcases List.mem_append.mp hv with hv | hv
      · simpa using (List.mem_filter.mp hv).2
      · obtain ⟨p, hp, rfl⟩ := List.mem_map.mp hv
        simpa using (List.mem_filter.mp hp).2
  · obtain ⟨hys, hyc⟩ := h.inputs y (hinputs ▸ List.mem_cons_of_mem _ hy)
    refine ⟨?_, hyc⟩
    rw [hself]
    refine List.mem_filter.mpr ⟨hys, ?_⟩
    simpa using fun he : y.index = x.index =>
      hapart.1 (List.mem_map.mpr ⟨y, hy, he⟩)

/-- What a completed run is made of. -/
theorem Owns.run (h : Owns a d own finds) {inputs run : List Segment}
    (hrun : contiguousRun? a.completed inputs = some run) :
    (∀ x ∈ run, x ∈ a.segments ∧ x.isComplete) ∧ (run.map Segment.index).Nodup := by
  obtain ⟨first, rfl⟩ := contiguousRun?_eq hrun
  have hsub : ((a.completed.drop first).take inputs.length).Sublist a.completed :=
    (List.take_sublist ..).trans (List.drop_sublist ..)
  have hperm : a.completed.Perm (a.segments.filter Segment.isComplete) := Segment.sortByAge_perm _
  refine ⟨fun x hx => List.mem_filter.mp (hperm.mem_iff.mp (hsub.subset hx)), ?_⟩
  refine List.Nodup.sublist (hsub.map _) ((hperm.map _).nodup_iff.mpr ?_)
  exact h.indices_nodup.sublist (List.filter_sublist.map _)

/-- The output of a merge holds its moves: each has the record of its source at its target. -/
theorem Copied.entries {inputs : List Segment} {m : Merge} {outs : List Volume}
    (h : Copied s s' own finds inputs (.ok m) outs) (ho : Owns s.self s.host.disk own finds)
    (hin : ∀ x ∈ inputs, x ∈ s.self.segments) :
    Volume.allEntries outs = m.moves.map (moved s) := by
  obtain ⟨-, copies, hmoves, hentries, hsourced⟩ := h.moves m rfl
  rw [hentries, hmoves, List.map_map]
  refine List.map_congr_left fun c hc => ?_
  obtain ⟨x, hx, p, hp, hrecord, hlocation⟩ := hsourced c hc
  have hread := ho.fetch_scanned (hin x hx) hp hlocation
    (Nat.le_of_lt (Segment.read_of_scan (ho.file (hin x hx)).1 hp).1)
  simp only [Function.comp_apply, moved, Relocation.ofCopy, hread, hrecord]
  rfl

/-- The outcome of choosing and copying the segments of a merge. -/
theorem Backed.prepare (h : Backed s l own finds) {files : List Segment}
    {r : Except ArchiveError (Option Merge)} (hgo : prepareMerge files s = (r, s'))
    (hr : r ≠ .error .indicesExhausted) :
    (∃ m, r = .ok (some m) ∧ ∃ own', Backed s' { l with
        issued := l.issued ++ m.moves.map (moved s)
        merging := some m
        inputs := m.inputs } own' finds) ∨
      (∀ m, r ≠ .ok (some m)) ∧ ∃ own', Backed s' l own' finds := by
  rcases prepareMerge_choice files s with ⟨-, hnone⟩ | ⟨-, ⟨-, hthrow⟩ | ⟨run, hrun,
    ⟨-, hnone⟩ | ⟨newest, -, hsome⟩⟩⟩
  · cases hnone.symm.trans hgo
    exact .inr ⟨by simp, own, h⟩
  · cases hthrow.symm.trans hgo
    exact .inr ⟨by simp, own, h⟩
  · cases hnone.symm.trans hgo
    exact .inr ⟨by simp, own, h⟩
  obtain ⟨hin, hnodup⟩ := h.owns.run hrun
  rw [hsome, Task.map_run] at hgo
  rcases hmerge : mergeRun run newest s with ⟨r1, s1⟩
  rw [hmerge] at hgo
  obtain ⟨⟨outs, hcopied⟩, hmax⟩ := h.owns.mergeRun_run h.no_wrap hin hmerge
  have hstep := toNat_step h.no_wrap hcopied.next
  have hwriter (w : Writer) (hw : w ∈ s1.self.writer) :
      ∃ v ∈ outs ++ own, v.segment.footer = none ∧ v.writer = w := by
    rw [hcopied.writer] at hw
    obtain ⟨v, hv, hrest⟩ := h.writer w hw
    exact ⟨v, List.mem_append_right _ hv, hrest⟩
  have hgone (index : UInt32) (hi : index ∈ l.removed) :
      index.toNat < s1.self.nextIndex.toNat ∧
        ∀ v ∈ outs ++ own ++ finds.map Prod.fst, v.segment.index ≠ index := by
    obtain ⟨hlt, hnone⟩ := h.removed index hi
    refine ⟨hstep ▸ Nat.lt_succ_of_lt hlt, fun v hv => ?_⟩
    rw [List.append_assoc] at hv
    rcases List.mem_append.mp hv with hv | hv
    · rw [hcopied.index v hv]
      exact fun he => Nat.ne_of_gt hlt (congrArg UInt32.toNat he)
    · exact hnone v hv
  cases r1 with
  | ok m =>
      cases hgo
      have hentries : (Volume.allEntries (outs ++ own)).Perm
          (Volume.allEntries own ++ m.moves.map (moved s)) := by
        rw [Volume.allEntries_append, hcopied.entries h.owns fun x hx =>
          (hin x (List.mem_reverse.mp hx)).1]
        exact List.perm_append_comm
      obtain ⟨hdistinct, hissued⟩ := h.issue hcopied.owns hentries fun index hi v hv =>
        (hgone index hi).2 v (List.mem_append_left _ hv)
      obtain ⟨hinputs, -⟩ := hcopied.moves m rfl
      refine .inl ⟨m, rfl, outs ++ own, hcopied.owns, by rw [hstep]; exact hmax (by simp), hwriter,
        hdistinct, hissued, hgone, fun x hx => ?_, ?_⟩
      · rw [hinputs, List.mem_reverse] at hx
        exact ⟨hcopied.segments x (hin x hx).1, (hin x hx).2⟩
      · rw [hinputs, List.map_reverse]
        exact (List.reverse_perm _).nodup_iff.mpr hnodup
  | error e =>
      cases hgo
      refine .inr ⟨by simp, outs ++ own, hcopied.owns, by
        rw [hstep]; exact hmax fun he => hr (by cases he; rfl), hwriter, h.distinct,
        fun e he => ?_, hgone, fun x hx => ?_, h.apart⟩
      · rw [Volume.allEntries_append]
        exact (h.issued e he).imp_left (List.mem_append_right _)
      · exact ⟨hcopied.segments x (h.inputs x hx).1, (h.inputs x hx).2⟩

theorem Filed.init_owns {n : Nat} {host host' : Host} {vs : List Volume}
    (hf : Filed directory name n host.disk vs) (h : init directory name host = (.ok a, host')) :
    a.writer = none ∧ a.nextIndex.toNat ≤ Location.maxSegments ∧ ∃ finds, Owns a host'.disk [] finds := by
  by_cases hn : SegmentName.Plain name
  · rcases hf.init_cases hn with ⟨e, host1, v, e', hrun, -⟩ |
      ⟨a1, host1, finds, hrun, -, -, hwriter, hnext, ho, -⟩
    · rw [hrun] at h
      cases h
    · rw [hrun] at h
      cases h
      exact ⟨hwriter, hnext, _, ho⟩
  · obtain ⟨a1, host1, hrun, -, -, hwriter, hnext, hk⟩ := hf.init_foreign hn
    rw [hrun] at h
    cases h
    exact ⟨hwriter, hnext, [], hk.tabled rfl rfl rfl, hk.holds.segments⟩

inductive Deed.Yields (l : Ledger) (s : Hosted Archive) :
    Deed → Except ArchiveError Ledger → Hosted Archive → Prop
  | idle {deed : Deed} : Yields l s deed (.ok l) s
  | started {r : Except ArchiveError Unit} {s' : Hosted Archive} (h : startWriting s = (r, s')) :
      Yields l s .start (r.map fun _ => l) s'
  | stored {record : Record} {r : Except ArchiveError Int64} {s' : Hosted Archive}
      (h : Archive.store record s = (r, s')) : Yields l s (.store record)
        (r.map fun location => { l with issued := l.issued ++ [⟨record, location⟩] }) s'
  | finished {minKey maxKey : Int64} {r : Except ArchiveError Unit} {s' : Hosted Archive}
      (h : endWriting minKey maxKey s = (r, s')) :
      Yields l s (.finish minKey maxKey) (r.map fun _ => l) s'
  | prepared {files : List Segment} {r : Except ArchiveError (Option Merge)} {s' : Hosted Archive}
      (h : prepareMerge files s = (r, s')) : Yields l s (.prepare files) (r.map fun o =>
        o.elim l fun m => { l with
          issued := l.issued ++ m.moves.map (moved s)
          merging := some m
          inputs := m.inputs }) s'
  | removed {x : Segment} {rest : List Segment} {r : Except ArchiveError Unit} {s' : Hosted Archive}
      (hinputs : l.inputs = x :: rest) (h : removeSegment x s = (r, s')) : Yields l s .remove
        (r.map fun _ => { l with inputs := rest, removed := l.removed ++ [x.index] }) s'
  | concluded {m : Merge} {r : Except ArchiveError Unit} {s' : Hosted Archive}
      (hinputs : l.inputs = []) (h : concludeMerge m s = (r, s')) :
      Yields l s .conclude (r.map fun _ => { l with merging := none }) s'
  | abandoned : Yields l s .abandon (.ok { l with merging := none, inputs := [] }) s
  | read {location : Int64} {part : Part} {buffer : Bytes} {r : Except ArchiveError (Nat × Bytes)}
      {s' : Hosted Archive} (h : readInto location part buffer s = (r, s')) :
      Yields l s (.read location part buffer) (r.map fun _ => l) s'
  | waited {clock : UInt64} :
      Yields l s (.wait clock) (.ok l) { s with host := { s.host with clock := clock } }

theorem Deed.yields {deed : Deed} {r : Except ArchiveError Ledger} (hgo : deed.run l s = (r, s')) :
    deed.Yields l s r s' := by
  -- A task whose value is only told by the ledger.
  have hresult {α : Type} {task : ArchiveTask α} {f : α → Ledger}
      (hrun : (do let x ← task; return f x) s = (r, s')) :
      ∃ r', task s = (r', s') ∧ r = r'.map f := by
    rcases Task.bind_eq hrun with ⟨x, s1, hx, hrest⟩ | ⟨e, he, rfl⟩
    · cases hrest
      exact ⟨.ok x, hx, rfl⟩
    · exact ⟨.error e, he, rfl⟩
  cases deed with
  | start =>
      obtain ⟨r', hrun, rfl⟩ := hresult (f := fun _ => l) hgo
      exact .started hrun
  | store record =>
      obtain ⟨r', hrun, rfl⟩ := hresult
        (f := fun location => { l with issued := l.issued ++ [⟨record, location⟩] }) hgo
      exact .stored hrun
  | finish minKey maxKey =>
      obtain ⟨r', hrun, rfl⟩ := hresult (f := fun _ => l) hgo
      exact .finished hrun
  | prepare files =>
      by_cases hbusy : l.merging.isSome
      · simp only [Deed.run, hbusy, if_true, Task.pure_run] at hgo
        cases hgo
        exact .idle
      · simp only [Deed.run, hbusy, Bool.false_eq_true, if_false, Task.bind_run, Task.get_run] at hgo
        rcases hrun : prepareMerge files s with ⟨_ | _ | m, s1⟩
        all_goals
          rw [hrun] at hgo
          cases hgo
          exact .prepared hrun
  | remove =>
      cases hinputs : l.inputs with
      | nil =>
          simp only [Deed.run, hinputs, Task.pure_run] at hgo
          cases hgo
          exact .idle
      | cons x rest =>
          simp only [Deed.run, hinputs] at hgo
          obtain ⟨r', hrun, rfl⟩ := hresult
            (f := fun _ => { l with inputs := rest, removed := l.removed ++ [x.index] }) hgo
          exact .removed hinputs hrun
  | conclude =>
      rcases hmerging : l.merging with _ | m
      · simp only [Deed.run, hmerging, Task.pure_run] at hgo
        cases hgo
        exact .idle
      · rcases hinputs : l.inputs with _ | ⟨x, rest⟩
        · simp only [Deed.run, hmerging, hinputs] at hgo
          obtain ⟨r', hrun, rfl⟩ := hresult (f := fun _ => ⟨l.issued, none, [], l.removed⟩) hgo
          have hconcluded := Deed.Yields.concluded (l := l) hinputs hrun
          rwa [hinputs] at hconcluded
        · simp only [Deed.run, hmerging, hinputs, Task.pure_run] at hgo
          cases hgo
          exact .idle
  | abandon =>
      cases hgo
      exact .abandoned
  | read location part buffer =>
      obtain ⟨r', hrun, rfl⟩ := hresult (f := fun _ => l) hgo
      exact .read hrun
  | wait clock =>
      cases hgo
      exact .waited

theorem Backed.deed (h : Backed s l own finds) {deed : Deed} {r : Except ArchiveError Ledger}
    (hgo : deed.run l s = (r, s')) (hr : r ≠ .error .indicesExhausted) :
    ∃ own' finds', Backed s' (r.toOption.getD l) own' finds' := by
  cases Deed.yields hgo with
  | idle => exact ⟨own, finds, h⟩
  | @started r _ hrun =>
      obtain ⟨own', hb⟩ := h.start hrun fun he => hr (by rw [he]; rfl)
      cases r <;> exact ⟨own', finds, hb⟩
  | @stored record r _ hrun =>
      rcases h.store record with ⟨e, hfail⟩ | ⟨location, s1, own', hdone, hb⟩
      · cases hfail.symm.trans hrun
        exact ⟨own, finds, h⟩
      · cases hdone.symm.trans hrun
        exact ⟨own', finds, hb⟩
  | @finished _ _ r _ hrun =>
      obtain ⟨own', hb⟩ := h.finish hrun
      cases r <;> exact ⟨own', finds, hb⟩
  | @prepared files r _ hrun =>
      rcases h.prepare hrun (fun he => hr (by rw [he]; rfl)) with ⟨m, rfl, own', hb⟩ | ⟨hnot, own', hb⟩
      · exact ⟨own', finds, hb⟩
      · rcases r with e | _ | m
        · exact ⟨own', finds, hb⟩
        · exact ⟨own', finds, hb⟩
        · exact absurd rfl (hnot m)
  | removed hinputs hrun =>
      obtain ⟨s1, own', finds', hdone, hb⟩ := h.remove hinputs
      cases hdone.symm.trans hrun
      exact ⟨own', finds', hb⟩
  | @concluded m r _ hinputs hrun =>
      simp only [concludeMerge, Task.bind_run, h.owns.syncDirectory_run, count_run,
        Hosted.report_run] at hrun
      cases hrun
      exact ⟨own, finds, h.owns.congr rfl rfl rfl rfl, h.room, h.writer, h.distinct, h.issued,
        h.removed, h.inputs, h.apart⟩
  | abandoned =>
      exact ⟨own, finds, h.owns, h.room, h.writer, h.distinct, h.issued, h.removed,
        fun x (hx : x ∈ []) => absurd hx List.not_mem_nil, List.Pairwise.nil⟩
  | @read location part buffer r _ hrun =>
      simp only [readInto, Task.bind_run, Task.get_run] at hrun
      cases hf : s.self.fetch s.host.disk location part buffer.length with
      | error e =>
          simp only [hf, Task.ofExcept_error] at hrun
          cases hrun
          exact ⟨own, finds, h⟩
      | ok bytes =>
          simp only [hf, Task.ofExcept_ok, count_run, Task.pure_run] at hrun
          cases hrun
          exact ⟨own, finds, h.congr rfl rfl rfl rfl rfl rfl⟩
  | waited => exact ⟨own, finds, h.congr rfl rfl rfl rfl rfl rfl⟩

theorem Issues.backed (hi : Issues directory name s l) : ∃ own finds, Backed s l own finds := by
  induction hi with
  | opened hf h =>
      obtain ⟨hwriter, hnext, finds, ho⟩ := hf.init_owns h
      exact ⟨[], finds, ho, hnext, by simp [hwriter], List.Pairwise.nil, by simp, by simp, by simp,
        List.Pairwise.nil⟩
  | done _ h hr ih =>
      obtain ⟨own, finds, hb⟩ := ih
      exact hb.deed h hr

/-- The files of an archive in use are those of volumes, so that it can be opened again. -/
theorem Issues.filed (hi : Issues directory name s l) :
    ∃ n vs, Filed s.self.directory s.self.name n s.host.disk vs := by
  obtain ⟨own, finds, hb⟩ := hi.backed
  obtain ⟨n, hf⟩ := hb.owns.kept.filed
  exact ⟨n, _, hf⟩

theorem Deed.ledger_grows {deed : Deed} {r : Except ArchiveError Ledger}
    (hgo : deed.run l s = (r, s')) :
    l.issued <+: (r.toOption.getD l).issued ∧ l.removed <+: (r.toOption.getD l).removed := by
  have hsame : l.issued <+: l.issued ∧ l.removed <+: l.removed :=
    ⟨List.prefix_refl _, List.prefix_refl _⟩
  cases Deed.yields hgo with
  | idle | abandoned | waited => exact hsame
  | @started r _ _ => cases r <;> exact hsame
  | @stored _ r _ _ =>
      cases r with
      | error e => exact hsame
      | ok location => exact ⟨List.prefix_append .., List.prefix_refl _⟩
  | @finished _ _ r _ _ => cases r <;> exact hsame
  | @prepared _ r _ _ =>
      rcases r with e | _ | m
      · exact hsame
      · exact hsame
      · exact ⟨List.prefix_append .., List.prefix_refl _⟩
  | @removed x _ r _ _ _ =>
      cases r with
      | error e => exact hsame
      | ok u => exact ⟨List.prefix_refl _, List.prefix_append ..⟩
  | @concluded _ r _ _ _ => cases r <;> exact hsame
  | @read _ _ _ r _ _ => cases r <;> exact hsame

/-- A merge as a whole is done in deeds: its moves are told, and its inputs are put down as gone. -/
theorem Issues.merge (hi : Issues directory name s l) (hidle : l.merging = none)
    {files : List Segment} {r : Except ArchiveError Unit}
    (hgo : Archive.merge (fun _ => pure ()) files s = (r, s')) (hr : r ≠ .error .indicesExhausted) :
    ∃ l', Issues directory name s' l' ∧ l'.merging = none ∧
      (l' = l ∨ ∃ m s1, prepareMerge files s = (.ok (some m), s1) ∧
        l'.issued = l.issued ++ m.moves.map (moved s) ∧
        l'.removed = l.removed ++ m.inputs.map Segment.index) := by
  rcases hprepare : prepareMerge files s with ⟨r1, s1⟩
  have hrun : (Deed.prepare files).run l s = (match r1 with
      | .error e => .error e
      | .ok none => .ok l
      | .ok (some m) => .ok { l with
          issued := l.issued ++ m.moves.map (moved s)
          merging := some m
          inputs := m.inputs }, s1) := by
    simp only [Deed.run, hidle, Option.isSome_none, Bool.false_eq_true, if_false, Task.bind_run,
      Task.get_run, hprepare]
    rcases r1 with _ | _ | m <;> rfl
  rw [Archive.merge, Task.bind_run, hprepare] at hgo
  rcases r1 with e | _ | m
  · cases hgo
    exact ⟨l, hi.done hrun (by simpa using hr), hidle, .inl rfl⟩
  · cases hgo
    exact ⟨l, hi.done hrun (by simp), hidle, .inl rfl⟩
  · have hprepared := hi.done hrun (by simp)
    -- The inputs are removed one by one, which cannot fail.
    have hremove (todo : List Segment) (gone : List UInt32) (t : Hosted Archive)
        (ht : Issues directory name t ⟨l.issued ++ m.moves.map (moved s), some m, todo, gone⟩) :
        ∃ t', removeSegments todo t = (.ok (), t') ∧ Issues directory name t'
          ⟨l.issued ++ m.moves.map (moved s), some m, [], gone ++ todo.map Segment.index⟩ := by
      induction todo generalizing gone t with
      | nil => exact ⟨t, rfl, by simpa using ht⟩
      | cons x rest ih =>
          obtain ⟨own, finds, hb⟩ := ht.backed
          obtain ⟨t1, -, -, hgone, -⟩ := hb.remove rfl
          have hstep : Deed.remove.run
              ⟨l.issued ++ m.moves.map (moved s), some m, x :: rest, gone⟩ t = (.ok
              ⟨l.issued ++ m.moves.map (moved s), some m, rest, gone ++ [x.index]⟩, t1) := by
            simp only [Deed.run, Task.bind_run, hgone, Task.pure_run]
          obtain ⟨t', hrest, hi'⟩ := ih _ t1 (ht.done hstep (by simp))
          refine ⟨t', ?_, ?_⟩
          · rw [removeSegments, Task.bind_ok hgone, hrest]
          · rw [List.map_cons, ← List.singleton_append, ← List.append_assoc]
            exact hi'
    obtain ⟨t, hremoved, ht⟩ := hremove m.inputs l.removed s1 hprepared
    obtain ⟨own, finds, hb⟩ := ht.backed
    have hend : ∃ t', concludeMerge m t = (.ok (), t') := ⟨_, by
      simp only [concludeMerge, Task.bind_run, hb.owns.syncDirectory_run, count_run,
        Hosted.report_run]
      rfl⟩
    obtain ⟨t', hend⟩ := hend
    simp only [Task.bind_run, Task.pure_run, finishMerge, hremoved, hend] at hgo
    cases hgo
    have hconclude : Deed.conclude.run
        ⟨l.issued ++ m.moves.map (moved s), some m, [], l.removed ++ m.inputs.map Segment.index⟩ t =
        (.ok ⟨l.issued ++ m.moves.map (moved s), none, [],
          l.removed ++ m.inputs.map Segment.index⟩, s') := by
      simp only [Deed.run, Task.bind_run, hend, Task.pure_run]
    exact ⟨_, ht.done hconclude (by simp), rfl, .inr ⟨m, s1, rfl, rfl, rfl⟩⟩

def runDeeds : List (Hosted Archive → Deed) → Hosted Archive × Ledger → Option (Hosted Archive × Ledger)
  | [], t => some t
  | f :: fs, (s, l) =>
    match (f s).run l s with
    | (.ok l', s') => runDeeds fs (s', l')
    | (.error _, _) => none

theorem Issues.runDeeds {fs : List (Hosted Archive → Deed)} (hi : Issues directory name s l)
    (hgo : Archive.runDeeds fs (s, l) = some (s', l')) : Issues directory name s' l' := by
  induction fs generalizing s l with
  | nil =>
      cases hgo
      exact hi
  | cons f fs ih =>
      rw [Archive.runDeeds] at hgo
      split at hgo
      · rename_i l1 s1 hrun
        exact ih (hi.done hrun (by simp)) hgo
      · cases hgo

/--
No location is told twice. As long as its segment has not been removed as an input of a merge, the
record is read at a location in each way; afterwards the segment is missing, since what the ledger
has put down stays there.
-/
theorem Issues.locations_denote (hi : Issues directory name s l) :
    (l.issued.map Entry.location).Nodup ∧
    (∀ e ∈ l.issued, ∃ index, Location.segment? e.location = some index ∧
      (index ∉ l.removed → ∀ part (buffer : Bytes),
        Segment.partSize part e.record.data.length ≤ buffer.length →
        let bytes := Segment.partBytes part (BigEndian.ofInt64 e.record.key) e.record.data
        (readInto e.location part buffer s).1 = .ok (bytes.length, Bytes.overlay 0 bytes buffer)) ∧
      (index ∈ l.removed → ∀ part (buffer : Bytes),
        (readInto e.location part buffer s).1 = .error (.segmentMissing index))) ∧
    ∀ (deed : Deed) (r : Except ArchiveError Ledger) (s' : Hosted Archive), deed.run l s = (r, s') →
      l.issued <+: (r.toOption.getD l).issued ∧ l.removed <+: (r.toOption.getD l).removed := by
  obtain ⟨own, finds, hb⟩ := hi.backed
  refine ⟨hb.distinct, fun e he => ?_, fun deed r s' hgo => Deed.ledger_grows hgo⟩
  have hgone (index : UInt32) (hindex : Location.segment? e.location = some index)
      (hr : index ∈ l.removed) (part : Part) (buffer : Bytes) :
      (readInto e.location part buffer s).1 = .error (.segmentMissing index) := by
    have hnone := hb.owns.segment?_eq_none (hb.removed index hr).2
    simp [readInto, fetch_of_missing hindex hnone]
  rcases hb.issued e he with hm | ⟨index, hr, hindex⟩
  · obtain ⟨v, hv, hve⟩ := Volume.mem_allEntries.mp hm
    have hstored := hb.owns.kept.holds.stored v (List.mem_append_left _ hv)
    have hindex := (hstored.location hve).1
    refine ⟨v.segment.index, hindex, fun _ part buffer hroom => ?_, hgone _ hindex⟩
    simp [readInto, hb.owns.fetch hv hve part hroom]
  · exact ⟨index, hindex, fun hnot => absurd hr hnot, hgone index hindex⟩

def trial (fs : List (Hosted Archive → Deed)) : Option (Hosted Archive × Ledger) :=
  match init [] "x" ⟨{}, 0, []⟩ with
  | (.ok a, host) => runDeeds fs (⟨a, host⟩, {})
  | (.error _, _) => none

theorem issues_of_trial {fs : List (Hosted Archive → Deed)} (h : trial fs = some (s, l)) :
    Issues [] "x" s l := by
  unfold trial at h
  split at h
  · rename_i a host hinit
    obtain ⟨n, hfiled⟩ := filed_of_vacant vacant_root "x"
    exact (Issues.opened hfiled hinit).runDeeds h
  · cases h

/-- A session and a merge of its segment: the record moves, and its old location leads nowhere. -/
theorem locations_denote_moved_record :
    ∃ s l old new, Issues [] "x" s l ∧ l.issued = [⟨⟨7, [1]⟩, old⟩, ⟨⟨7, [1]⟩, new⟩] ∧ old ≠ new ∧
      (readInto old .key (List.replicate 8 0) s).1 = .error (.segmentMissing 0) ∧
      (readInto new .data [0] s).1 = .ok (1, [1]) := by
  have hcheck : (trial [fun _ => .start, fun _ => .store ⟨7, [1]⟩, fun _ => .finish 0 10,
      fun s => .prepare s.self.completed, fun _ => .remove, fun _ => .conclude]).any fun t =>
        t.2.issued.map (·.record) == [⟨7, [1]⟩, ⟨7, [1]⟩] && t.2.removed == [0] &&
          t.2.issued.map (Location.segment? ·.location) == [some 0, some 1] := by
    decide +kernel
  obtain ⟨⟨s, l⟩, hs, hgo⟩ := (Option.any_eq_true ..).mp hcheck
  simp only [Bool.and_eq_true, beq_iff_eq] at hgo
  obtain ⟨⟨hrecords, hremoved⟩, hsegments⟩ := hgo
  have hi : Issues [] "x" s l := issues_of_trial hs
  obtain ⟨hdistinct, hread, -⟩ := Issues.locations_denote hi
  match hissued : l.issued with
  | [] => simp [hissued] at hrecords
  | [_] => simp [hissued] at hrecords
  | _ :: _ :: _ :: _ => simp [hissued] at hrecords
  | [⟨r, old⟩, ⟨r', new⟩] =>
      rw [hissued] at hrecords hsegments hdistinct
      simp only [List.map_cons, List.map_nil, List.cons.injEq, and_true] at hrecords hsegments
      obtain ⟨rfl, rfl⟩ := hrecords
      obtain ⟨hold, hnew⟩ := hsegments
      obtain ⟨i, hi, -, hgone⟩ := hread ⟨⟨7, [1]⟩, old⟩ (by simp [hissued])
      obtain ⟨j, hj, hthere, -⟩ := hread ⟨⟨7, [1]⟩, new⟩ (by simp [hissued])
      rw [hold] at hi
      rw [hnew] at hj
      cases hi
      cases hj
      refine ⟨s, l, old, new, ‹_›, hissued, by simpa using hdistinct, ?_, ?_⟩
      · exact hgone (by rw [hremoved]; decide) .key _
      · exact hthere (by rw [hremoved]; decide) .data [0] (Nat.le_refl _)

end Archive

end MeteredStorage
