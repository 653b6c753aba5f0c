import MeteredStorage.Proofs.Archive.Filing
import MeteredStorage.Proofs.Archive.Single
import MeteredStorage.Proofs.Archive.Survivors
import MeteredStorage.Proofs.Segment.Reading

namespace MeteredStorage

namespace Volume

def copies : Volume → List Entry → List (Entry × Int64)
  | _, [] => []
  | out, e :: es =>
    (e, Location.pack out.segment.index out.dataSize) :: copies (out.push e.record) es

def pushAll (out : Volume) (es : List Entry) : Volume :=
  { out with records := out.records ++ es.map Entry.record }

theorem pushAll_nil (out : Volume) : out.pushAll [] = out := by
  simp [pushAll]

theorem pushAll_cons (out : Volume) (e : Entry) (es : List Entry) :
    out.pushAll (e :: es) = (out.push e.record).pushAll es := by
  simp [pushAll, push]

theorem pushAll_append (out : Volume) (es fs : List Entry) :
    out.pushAll (es ++ fs) = (out.pushAll es).pushAll fs := by
  simp [pushAll]

theorem copies_append (out : Volume) (es fs : List Entry) :
    out.copies (es ++ fs) = out.copies es ++ (out.pushAll es).copies fs := by
  induction es generalizing out with
  | nil => rw [pushAll_nil]; rfl
  | cons e es ih => rw [List.cons_append, copies, copies, ih, pushAll_cons, List.cons_append]

theorem map_copies (out : Volume) (es : List Entry) : (out.copies es).map Prod.fst = es := by
  induction es generalizing out with
  | nil => rfl
  | cons e es ih => rw [copies, List.map_cons, ih]

theorem mem_of_mem_copies {out : Volume} {es : List Entry} {c : Entry × Int64}
    (hc : c ∈ out.copies es) : c.1 ∈ es := by
  rw [← out.map_copies es]
  exact List.mem_map_of_mem hc

theorem length_copies (out : Volume) (es : List Entry) : (out.copies es).length = es.length := by
  rw [← List.length_map (f := Prod.fst), map_copies]

theorem entries_pushAll (out : Volume) (es : List Entry) :
    (out.pushAll es).entries =
      out.entries ++ (out.copies es).map fun c => ⟨c.1.record, c.2⟩ := by
  induction es generalizing out with
  | nil => rw [pushAll_nil, copies, List.map_nil, List.append_nil]
  | cons e es ih =>
      rw [pushAll_cons, ih, entries_push, copies, List.map_cons, List.append_assoc,
        List.singleton_append]

theorem entries_pushAll_of_empty {out : Volume} (hempty : out.records = []) (es : List Entry) :
    (out.pushAll es).entries = (out.copies es).map fun c => ⟨c.1.record, c.2⟩ := by
  rw [entries_pushAll, entries, hempty, Record.place, List.map_nil, List.nil_append]

theorem dataSize_pushAll (out : Volume) (es : List Entry) :
    (out.pushAll es).dataSize = out.dataSize + Record.sizeAll (es.map Entry.record) := by
  rw [dataSize, pushAll, Record.sizeAll_append, dataSize]

end Volume

def Relocation.ofCopy (c : Entry × Int64) : Relocation := ⟨c.1.record.key, c.1.location, c.2⟩

/--
The moves of a merge take the latest entries of `run` to the entries of `outs`. Each key of the range
that occurs in the run moves, and the outputs hold no other keys and no other records.
-/
structure Relocates (run outs : List Volume) (minKey maxKey : Int64) (moves : List Relocation) :
    Prop where
  nodup : (moves.map Relocation.key).Nodup
  moved : ∀ m ∈ moves, ∃ r, Entry.latest m.key (Volume.allEntries run) = some ⟨r, m.source⟩ ∧
    Entry.latest m.key (Volume.allEntries outs) = some ⟨r, m.target⟩
  complete : ∀ key e, minKey ≤ key → key ≤ maxKey →
    Entry.latest key (Volume.allEntries run) = some e → ∃ m ∈ moves, m.key = key
  only : ∀ key, (∀ m ∈ moves, m.key ≠ key) → Entry.latest key (Volume.allEntries outs) = none
  copied : ∀ e ∈ Volume.allEntries outs, ∃ o ∈ Volume.allEntries run, o.record = e.record
  range : ∀ m ∈ moves, minKey ≤ m.key ∧ m.key ≤ maxKey
  targets : (Volume.allEntries outs).map (fun e => (e.record.key, e.location)) =
    moves.map fun m => (m.key, m.target)

/-- The copies of what survives of a run are a merge of it. -/
theorem relocates_copies {run outs : List Volume} {out : Volume} (hempty : out.records = [])
    (minKey maxKey : Int64)
    (houts : Volume.allEntries outs =
      (out.pushAll (Volume.allSurvivors minKey maxKey [] run.reverse)).entries) :
    Relocates run outs minKey maxKey
      ((out.copies (Volume.allSurvivors minKey maxKey [] run.reverse)).map Relocation.ofCopy) := by
  let es := Volume.allSurvivors minKey maxKey [] run.reverse
  have hsurvivor {c : Entry × Int64} (hc : c ∈ out.copies es) :
      (minKey ≤ c.1.record.key ∧ c.1.record.key ≤ maxKey) ∧
        Entry.latest c.1.record.key (Volume.allEntries run) = some c.1 :=
    Volume.mem_allSurvivors.mp (Volume.mem_of_mem_copies hc)
  have hentries : Volume.allEntries outs =
      (out.copies es).map fun c => (⟨c.1.record, c.2⟩ : Entry) :=
    houts.trans (Volume.entries_pushAll_of_empty hempty es)
  have hkeys : ((out.copies es).map (·.1.record.key)).Nodup := by
    have h := Volume.nodup_allSurvivors minKey maxKey run
    rw [← out.map_copies (Volume.allSurvivors minKey maxKey [] run.reverse), List.map_map] at h
    exact h
  have houtput : ((Volume.allEntries outs).map (·.record.key)).Nodup := by
    rw [hentries, List.map_map]
    exact hkeys
  refine ⟨?nodup, ?moved, ?complete, ?only, ?copied, ?range, ?targets⟩
  case nodup =>
    rw [List.map_map]
    exact hkeys
  case moved =>
    intro m hm
    obtain ⟨c, hc, rfl⟩ := List.mem_map.mp hm
    have hmem : (⟨c.1.record, c.2⟩ : Entry) ∈ Volume.allEntries outs := by
      rw [hentries]
      exact List.mem_map_of_mem hc
    exact ⟨c.1.record, (hsurvivor hc).2, Entry.latest_of_nodup houtput hmem⟩
  case complete =>
    intro key e hmin hmax he
    obtain rfl := (Entry.latest_mem he).2
    have hmem : e ∈ es := Volume.mem_allSurvivors.mpr ⟨⟨hmin, hmax⟩, he⟩
    rw [← out.map_copies es] at hmem
    obtain ⟨c, hc, rfl⟩ := List.mem_map.mp hmem
    exact ⟨_, List.mem_map_of_mem hc, rfl⟩
  case only =>
    intro key hkey
    refine Entry.latest_eq_none.mpr fun e he => ?_
    rw [hentries] at he
    obtain ⟨c, hc, rfl⟩ := List.mem_map.mp he
    exact hkey _ (List.mem_map_of_mem hc)
  case copied =>
    intro e he
    rw [hentries] at he
    obtain ⟨c, hc, rfl⟩ := List.mem_map.mp he
    exact ⟨c.1, (Entry.latest_mem (hsurvivor hc).2).1, rfl⟩
  case range =>
    intro m hm
    obtain ⟨c, hc, rfl⟩ := List.mem_map.mp hm
    exact (hsurvivor hc).1
  case targets =>
    rw [hentries, List.map_map, List.map_map]
    rfl

/-- The latest entry of a key in the range moves to the latest one of the output. -/
theorem Relocates.of_latest {run outs : List Volume} {minKey maxKey key : Int64}
    {moves : List Relocation} {e : Entry} (h : Relocates run outs minKey maxKey moves)
    (hmin : minKey ≤ key) (hmax : key ≤ maxKey)
    (he : Entry.latest key (Volume.allEntries run) = some e) :
    ∃ m ∈ moves, m.key = key ∧ m.source = e.location ∧
      Entry.latest key (Volume.allEntries outs) = some ⟨e.record, m.target⟩ := by
  obtain ⟨m, hm, rfl⟩ := h.complete key e hmin hmax he
  obtain ⟨r, hsource, htarget⟩ := h.moved m hm
  cases he.symm.trans hsource
  exact ⟨m, hm, rfl, rfl, htarget⟩

/-- A merge changes no latest record of a key in the range. -/
theorem Relocates.latest_eq {run outs : List Volume} {minKey maxKey key : Int64}
    {moves : List Relocation} (h : Relocates run outs minKey maxKey moves) (hmin : minKey ≤ key)
    (hmax : key ≤ maxKey) :
    (Entry.latest key (Volume.allEntries outs)).map Entry.record =
      (Entry.latest key (Volume.allEntries run)).map Entry.record := by
  cases hrun : Entry.latest key (Volume.allEntries run) with
  | none =>
      rw [h.only key]
      intro m hm hk
      obtain ⟨r, hr, -⟩ := h.moved m hm
      rw [hk, hrun] at hr
      cases hr
  | some e =>
      obtain ⟨m, -, -, -, ho⟩ := h.of_latest hmin hmax hrun
      rw [ho]
      rfl

/-- A merge leaves no record of a key outside the range in its output. -/
theorem Relocates.latest_outside {run outs : List Volume} {minKey maxKey key : Int64}
    {moves : List Relocation} (h : Relocates run outs minKey maxKey moves)
    (hout : ¬(minKey ≤ key ∧ key ≤ maxKey)) : Entry.latest key (Volume.allEntries outs) = none :=
  h.only key fun m hm hk => hout (hk ▸ h.range m hm)

namespace Archive

variable {s : Hosted Archive} {out u : Volume} {vs : List Volume}

/-- The volumes lie on the disk, and beside them an output with some of their records and no footer. -/
def Tentative (directory : Path) (name : String) (vs : List Volume) (d : Disk) : Prop :=
  ∃ out n, out.segment.footer = none ∧ (∀ r ∈ out.records, ∃ u ∈ vs, r ∈ u.records) ∧
    Filed directory name n d (out :: vs)

theorem Kept.tentative {a : Archive} {d e : Disk} (h : Kept a d (out :: vs))
    (hopen : out.segment.footer = none) (hfrom : ∀ r ∈ out.records, ∃ u ∈ vs, r ∈ u.records)
    (hs : Disk.Same d e) : Tentative a.directory a.name vs e := by
  obtain ⟨n, hfiled⟩ := h.filed
  exact ⟨out, n, hopen, hfrom, hfiled.same hs⟩

/-- Records are copied to the end of the output until it is full. -/
theorem Kept.copyRecords_cases (h : Kept s.self s.host.disk (out :: vs)) (hu : u ∈ vs)
    (hopen : out.segment.footer = none) (hfrom : ∀ r ∈ out.records, ∃ u ∈ vs, r ∈ u.records)
    (ps : List PlacedRecord) (hps : ∀ p ∈ ps, p ∈ Record.place 0 u.records) :
    (∃ out' s', copyRecords out.segment u.segment out.dataSize ps s =
        (.error (.segmentFull out.segment.index), s') ∧ s'.self = s.self ∧
      out'.segment = out.segment ∧ Kept s'.self s'.host.disk (out' :: vs) ∧
      Location.maxOffset < (out.pushAll (ps.map u.entryOf)).dataSize ∧
      Disk.Within (Tentative s.self.directory s.self.name vs) s.host.disk s'.host.disk) ∨
    ∃ s', copyRecords out.segment u.segment out.dataSize ps s =
        (.ok ((out.copies (ps.map u.entryOf)).map Relocation.ofCopy,
          (out.pushAll (ps.map u.entryOf)).dataSize), s') ∧ s'.self = s.self ∧
      Kept s'.self s'.host.disk (out.pushAll (ps.map u.entryOf) :: vs) ∧
      Disk.Within (Tentative s.self.directory s.self.name vs) s.host.disk s'.host.disk := by
  have hbegun : ∀ e, Disk.Same s.host.disk e → Tentative s.self.directory s.self.name vs e :=
    fun _ => h.tentative hopen hfrom
  induction ps generalizing out s with
  | nil =>
      rw [List.map_nil, Volume.pushAll_nil]
      exact .inr ⟨s, rfl, rfl, h, .refl hbegun⟩
  | cons p ps ih =>
      have hpu := hps p (List.mem_cons_self ..)
      have hus := h.holds.stored u (List.mem_cons_of_mem _ hu)
      have hos := h.holds.stored out (List.mem_cons_self ..)
      by_cases hfull : Location.maxOffset < out.dataSize + p.record.size
      · refine .inl ⟨out, s, ?_, rfl, rfl, h, ?_, .refl hbegun⟩
        · simp [copyRecords, hfull]
        · rw [Volume.dataSize_pushAll, List.map_cons, List.map_cons, Record.sizeAll]
          exact Nat.lt_of_lt_of_le hfull (Nat.add_le_add_left (Nat.le_add_right ..) _)
      · obtain ⟨before, after, hr, -⟩ := Record.mem_place hpu
        have hmem : p.record ∈ u.records := by rw [hr]; simp
        have hfits : p.record.Fits := hus.fits _ hmem
        have hoffset : out.dataSize < Location.maxOffset := by
          have := p.record.size_pos
          omega
        have htarget : out.segment.locationOf out.dataSize =
            .ok (Location.pack out.segment.index out.dataSize) := by
          rw [Segment.locationOf, Location.encode?_eq hos.index_lt hoffset]
        let d := s.host.disk.changed (.write out.segment.slot out.dataSize p.record.encode)
        have hrun : Hosted.onDisk (out.segment.append out.dataSize p.record) s =
            (.ok (), s.withDisk d) := by simp [Segment.append, d]
        have hk : Kept s.self d (out.push p.record :: vs) :=
          h.append hopen hfits (Nat.le_of_not_lt hfull)
        have hfrom' : ∀ r ∈ (out.push p.record).records, ∃ u ∈ vs, r ∈ u.records := by
          intro r hr
          rcases List.mem_append.mp hr with hr | hr
          · exact hfrom r hr
          · exact ⟨u, hu, List.mem_singleton.mp hr ▸ hmem⟩
        have hbegun' : ∀ e, Disk.Same d e → Tentative s.self.directory s.self.name vs e :=
          fun _ => hk.tentative hopen hfrom'
        have hbrief := brief_append out.segment out.dataSize p.record s
        rw [hrun] at hbrief
        have hstep : Disk.Within (Tentative s.self.directory s.self.name vs) s.host.disk d :=
          hbrief.within.mono fun e he => he.elim (hbegun e) (hbegun' e)
        have hrest := ih (s := s.withDisk d) hk hopen hfrom'
          (fun q hq => hps q (List.mem_cons_of_mem _ hq)) hbegun'
        rw [Volume.dataSize_push] at hrest
        rcases hrest with ⟨out', s', hgo, hself, hseg, hk', hsize, hleft⟩ | ⟨s', hgo, hself, hk', hleft⟩
        · refine .inl ⟨out', s', ?_, hself, hseg, hk', ?_, hstep.trans hleft⟩
          · have hgo' : copyRecords out.segment u.segment (out.dataSize + p.record.size) ps
              (s.withDisk d) = (.error (.segmentFull out.segment.index), s') := hgo
            simp [-Hosted.onDisk_run, copyRecords, if_neg hfull, hrun, hus.locationOf hpu, htarget, hgo']
          · rw [List.map_cons, Volume.pushAll_cons]
            exact hsize
        · refine .inr ⟨s', ?_, hself, ?_, hstep.trans hleft⟩
          · have hgo' : copyRecords out.segment u.segment (out.dataSize + p.record.size) ps
              (s.withDisk d) = _ := hgo
            simp [-Hosted.onDisk_run, copyRecords, if_neg hfull, hrun, hus.locationOf hpu, htarget, hgo',
              Volume.copies, Volume.entryOf, Relocation.ofCopy, Volume.pushAll_cons]
          · rw [List.map_cons, Volume.pushAll_cons]
            exact hk'

/-- The survivors of the inputs are copied to the end of the output until it is full. -/
theorem Kept.copyLatest_cases (h : Kept s.self s.host.disk (out :: vs))
    (hopen : out.segment.footer = none) (hfrom : ∀ r ∈ out.records, ∃ u ∈ vs, r ∈ u.records)
    (minKey maxKey : Int64) (seen : List Int64) (us : List Volume)
    (hus : ∀ u ∈ us, u ∈ vs ∧ u.segment.isComplete) :
    (∃ out' s', copyLatest out.segment minKey maxKey seen out.dataSize (us.map Volume.segment) s =
        (.error (.segmentFull out.segment.index), s') ∧ s'.self = s.self ∧
      out'.segment = out.segment ∧ Kept s'.self s'.host.disk (out' :: vs) ∧
      Location.maxOffset < (out.pushAll (Volume.allSurvivors minKey maxKey seen us)).dataSize ∧
      Disk.Within (Tentative s.self.directory s.self.name vs) s.host.disk s'.host.disk) ∨
    ∃ s', copyLatest out.segment minKey maxKey seen out.dataSize (us.map Volume.segment) s =
        (.ok ((out.copies (Volume.allSurvivors minKey maxKey seen us)).map Relocation.ofCopy,
          (out.pushAll (Volume.allSurvivors minKey maxKey seen us)).dataSize), s') ∧
      s'.self = s.self ∧
      Kept s'.self s'.host.disk (out.pushAll (Volume.allSurvivors minKey maxKey seen us) :: vs) ∧
      Disk.Within (Tentative s.self.directory s.self.name vs) s.host.disk s'.host.disk := by
  induction us generalizing out s seen with
  | nil =>
      rw [Volume.allSurvivors, Volume.pushAll_nil]
      exact .inr ⟨s, rfl, rfl, h, .refl fun _ => h.tentative hopen hfrom⟩
  | cons u us ih =>
      obtain ⟨hu, hc⟩ := hus u (List.mem_cons_self ..)
      have hrecords := (h.holds.stored u (List.mem_cons_of_mem _ hu)).records_run hc
      let kept := Archive.survivors minKey maxKey seen (Record.place 0 u.records)
      have hkeys : kept.map (·.record.key) =
          (u.survivors minKey maxKey seen).map (·.record.key) := by
        rw [Volume.survivors, List.map_map]
        rfl
      have hkept : ∀ p ∈ kept, p ∈ Record.place 0 u.records := fun p hp => Archive.mem_survivors hp
      rcases h.copyRecords_cases hu hopen hfrom kept hkept with
        ⟨out', s', hrun, hself, hseg, hk, hsize, hleft⟩ | ⟨s', hrun, hself, hk, hleft⟩
      · refine .inl ⟨out', s', ?_, hself, hseg, hk, ?_, hleft⟩
        · simp only [copyLatest, List.map_cons, Task.bind_run, Task.get_run, hrecords,
            Task.ofExcept_ok, hrun, kept]
        · rw [Volume.allSurvivors, Volume.pushAll_append, Volume.dataSize_pushAll]
          exact Nat.lt_of_lt_of_le hsize (Nat.le_add_right ..)
      · have hfrom' : ∀ r ∈ (out.pushAll (kept.map u.entryOf)).records, ∃ u ∈ vs, r ∈ u.records := by
          intro r hr
          rcases List.mem_append.mp hr with hr | hr
          · exact hfrom r hr
          · rw [List.map_map] at hr
            obtain ⟨p, hp, rfl⟩ := List.mem_map.mp hr
            obtain ⟨before, after, hmid, -⟩ := Record.mem_place (hkept p hp)
            exact ⟨u, hu, by rw [hmid]; simp [Volume.entryOf]⟩
        have hrest := ih hk hopen hfrom' (kept.map (·.record.key) ++ seen)
          fun w hw => hus w (List.mem_cons_of_mem _ hw)
        have hsegment : (out.pushAll (kept.map u.entryOf)).segment = out.segment := rfl
        rw [hsegment, hself] at hrest
        rcases hrest with ⟨out', s'', hgo, hself', hseg, hk', hsize, hleft'⟩ |
          ⟨s'', hgo, hself', hk', hleft'⟩
        · refine .inl ⟨out', s'', ?_, hself', hseg, hk', ?_, hleft.trans hleft'⟩
          · simp only [copyLatest, List.map_cons, Task.bind_run, Task.get_run, hrecords,
              Task.ofExcept_ok, hrun, hgo, kept]
          · rw [Volume.allSurvivors, ← hkeys, Volume.pushAll_append]
            exact hsize
        · refine .inr ⟨s'', ?_, hself', ?_, hleft.trans hleft'⟩
          · simp only [copyLatest, List.map_cons, Task.bind_run, Task.get_run, hrecords,
              Task.ofExcept_ok, hrun, hgo, kept]
            rw [Volume.allSurvivors, ← hkeys, Volume.copies_append, List.map_append,
              Volume.pushAll_append]
            rfl
          · rw [Volume.allSurvivors, ← hkeys, Volume.pushAll_append]
            exact hk'

structure Copying (I : Hosted Archive → Prop) (E : ArchiveError → Prop) (output : Segment) : Prop where
  append : ∀ offset r, Task.Abides I E (Hosted.onDisk (output.append offset r))
  full : E (.segmentFull output.index)
  reading : ∀ e : ArchiveError, e.OfReading → E e

namespace Copying

open MeteredStorage.Task (Abides)

variable {I : Hosted Archive → Prop} {E : ArchiveError → Prop} {output : Segment}

theorem locationOf (h : Copying I E output) (x : Segment) (offset : Nat) :
    Abides I E (Task.ofExcept id (x.locationOf offset)) :=
  Abides.ofExcept fun e he => h.reading e (Segment.locationOf_error he ▸ .range)

theorem copyRecords (h : Copying I E output) (input : Segment) (offset : Nat)
    (rs : List PlacedRecord) : Abides I E (Archive.copyRecords output input offset rs) := by
  induction rs generalizing offset with
  | nil => exact Abides.pure _
  | cons r rs ih =>
      unfold Archive.copyRecords
      split
      · exact Abides.throw h.full
      · exact (h.append _ _).then fun _ => (h.locationOf _ _).then fun _ => (h.locationOf _ _).then fun _ =>
          (ih _).then fun _ => Abides.pure _

theorem copyLatest (h : Copying I E output) (minKey maxKey : Int64) (seen : List Int64) (offset : Nat)
    (inputs : List Segment) :
    Abides I E (Archive.copyLatest output minKey maxKey seen offset inputs) := by
  induction inputs generalizing seen offset with
  | nil => exact Abides.pure _
  | cons input rest ih =>
      have hread (s : Hosted Archive) :
          Abides I E (Task.ofExcept id (input.records s.host.disk).2) :=
        Abides.ofExcept fun e he => h.reading e (Segment.records_error he)
      exact Abides.get fun s => (hread s).then fun _ => (h.copyRecords _ _ _).then fun _ =>
        (ih _ _).then fun _ => Abides.pure _

theorem fillOutput (h : Copying I E output) (hfinish : ∀ f, Abides I E (finishSegment output f))
    (newest : Footer) (mergedFrom : UInt64) (inputs : List Segment) :
    Abides I E (Archive.fillOutput output newest mergedFrom inputs) := by
  refine (h.copyLatest _ _ _ _ _).then fun copied => ?_
  obtain ⟨moves, dataSize⟩ := copied
  dsimp only
  split
  · exact Abides.get fun _ => (hfinish _).then fun _ => Abides.pure _
  · exact Abides.pure _

end Copying

end Archive

end MeteredStorage
