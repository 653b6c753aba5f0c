import MeteredStorage.Proofs.Archive.Filing

namespace MeteredStorage

namespace Host

variable {α : Type} {h : Host} {d : Disk}

@[simp] theorem report_run {ε : Type} (event : Event) (h : Host) :
    (report event : Task Host ε Unit) h = (.ok (), { h with events := event :: h.events }) := rfl

theorem onDisk_ok {task : DiskTask α} {a : α} (ht : task h.disk = (.ok a, d)) :
    onDisk task h = (.ok a, { h with disk := d }) := Task.zoom_ok ht

end Host

namespace Volume

/-- What the volume of a file is taken for that ends in a footer, whether it was completed or not. -/
def taken (p : Volume × Footer) : Volume := p.1.finished p.2

def footer? (d : Disk) (v : Volume) : Option Footer :=
  (Segment.completeFooter? v.segment.index (d.content v.segment.slot)).toOption.join

theorem footer?_congr {d d' : Disk} {v : Volume}
    (h : d'.content v.segment.slot = d.content v.segment.slot) : v.footer? d' = v.footer? d := by
  rw [footer?, h, footer?]

def footed (d : Disk) (vs : List Volume) : List (Volume × Footer) :=
  vs.flatMap fun v => ((v.footer? d).map (Prod.mk v)).toList

theorem footed_cons (d : Disk) (v : Volume) (vs : List Volume) :
    footed d (v :: vs) = ((v.footer? d).map (Prod.mk v)).toList ++ footed d vs := List.flatMap_cons

theorem footed_congr {d d' : Disk} {vs : List Volume}
    (h : ∀ v ∈ vs, d'.content v.segment.slot = d.content v.segment.slot) :
    footed d' vs = footed d vs := by
  induction vs with
  | nil => simp only [footed, List.flatMap_nil]
  | cons v vs ih =>
      rw [footed_cons, footed_cons, footer?_congr (h v (List.mem_cons_self ..)),
        ih fun u hu => h u (List.mem_cons_of_mem _ hu)]

theorem taken_eq {v : Volume} {f : Footer} (h : v.segment.footer = some f) : taken (v, f) = v := by
  simp only [taken, finished, ← h]

def shutBoth (p : Volume × Footer) : Volume × Footer := (p.1.shut, p.2)

end Volume

namespace Archive

variable {directory : Path} {name : String} {n : Nat} {host : Host} {found : Found}
  {todo vs : List Volume} {kept : List (Volume × Footer)} {v : Volume} {f : Footer}

/--
A search of the directory: `todo` is still to be looked at, `kept` has been opened. A file that ends
in a footer is opened, even if the footer is the data of a record.
-/
structure Finding (directory : Path) (name : String) (n : Nat) (d : Disk) (found : Found)
    (todo : List Volume) (kept : List (Volume × Footer)) : Prop where
  filed : Filed directory name n d (todo ++ kept.map Prod.fst)
  segments : found.segments.Perm (kept.map fun p => (Volume.taken p).segment)
  handles : (kept.map (·.1.segment.handle)).Nodup
  handle_lt : ∀ p ∈ kept, p.1.segment.handle < d.opened
  index_lt : ∀ p ∈ kept, p.1.segment.index.toNat < found.nextIndex
  next_le : found.nextIndex ≤ Location.maxSegments

def Found.next (found : Found) (index : UInt32) : Nat := max found.nextIndex (index.toNat + 1)

theorem Finding.next_spec (h : Finding directory name n host.disk found (v :: todo) kept) :
    v.segment.index.toNat + 1 ≠ 0x100000000 ∧
      found.next v.segment.index ≤ Location.maxSegments := by
  have hlt := (h.filed.stored v (List.mem_cons_self ..)).index_lt
  have hle := h.next_le
  refine ⟨?_, ?_⟩
  · rw [Location.maxSegments_eq] at hlt
    omega
  · rw [Found.next]
    omega

theorem Finding.admitted (h : Finding directory name n host.disk found (v :: todo) kept) :
    Disk.admitPath (Path.join directory (SegmentName.ofIndex name v.segment.index)) = .ok () := by
  rw [← h.filed.path v (List.mem_cons_self ..)]
  exact (h.filed.stored v (List.mem_cons_self ..)).file.admitted

theorem Finding.open_run (h : Finding directory name n host.disk found (v :: todo) kept)
    (hfooter : Segment.completeFooter? v.segment.index (host.disk.content v.segment.slot) =
      .ok (some f)) :
    ∃ found' host', findSegment directory found (SegmentName.ofIndex name v.segment.index)
        v.segment.slot v.segment.index host = (.ok found', host') ∧
      host'.disk = opening host.disk ∧
      Finding directory name n host'.disk found' todo ((v.held host.disk.opened, f) :: kept) := by
  have hpath := h.filed.path v (List.mem_cons_self ..)
  obtain ⟨hlast, hnext⟩ := h.next_spec
  let s : Segment := ⟨v.segment.index, Path.join directory
    (SegmentName.ofIndex name v.segment.index), v.segment.slot, host.disk.opened, some f⟩
  have hs : (Volume.taken (v.held host.disk.opened, f)).segment = s := by
    simp only [Volume.taken, Volume.finished, Volume.held, s, ← hpath]
  have hopen : Host.onDisk Disk.openHandle host =
      (.ok host.disk.opened, { host with disk := opening host.disk }) := Host.onDisk_ok rfl
  have hindices := h.filed.indices
  refine ⟨⟨enter found.segments s, found.next v.segment.index⟩, { host with
      disk := opening host.disk
      events := .segmentLoaded v.segment.index :: host.events }, ?_, rfl, ?_⟩
  · simp only [findSegment, if_neg hlast, h.admitted, Task.bind_run, Task.pure_run, Task.get_run, hfooter,
      Task.ofExcept_ok, hopen, Host.report_run]
    rfl
  · refine ⟨((h.filed.opened host.disk.opened).perm List.perm_middle.symm), ?_, ?_, ?_, ?_, hnext⟩
    · rw [List.map_cons, hs]
      refine (enter_perm fun t ht he => ?_).trans (h.segments.cons _)
      obtain ⟨p, hp, rfl⟩ := List.mem_map.mp (h.segments.mem_iff.mp ht)
      exact (List.nodup_cons.mp hindices).1
        (List.mem_map.mpr ⟨p.1, List.mem_append_right _ (List.mem_map_of_mem hp), he⟩)
    · refine List.nodup_cons.mpr ⟨fun hm => ?_, h.handles⟩
      obtain ⟨p, hp, he⟩ := List.mem_map.mp hm
      exact Nat.ne_of_lt (h.handle_lt p hp) he
    · intro p hp
      rcases List.mem_cons.mp hp with rfl | hp
      · exact Nat.lt_succ_self _
      · exact Nat.lt_succ_of_lt (h.handle_lt p hp)
    · intro p hp
      rcases List.mem_cons.mp hp with rfl | hp
      · exact Nat.le_max_right ..
      · exact Nat.lt_of_lt_of_le (h.index_lt p hp) (Nat.le_max_left ..)

theorem Finding.drop_run (h : Finding directory name n host.disk found (v :: todo) kept)
    (hc : Segment.completeFooter? v.segment.index (host.disk.content v.segment.slot) = .ok none) :
    ∃ found' host', findSegment directory found (SegmentName.ofIndex name v.segment.index)
        v.segment.slot v.segment.index host = (.ok found', host') ∧
      Disk.Frame (· ≠ v.segment.slot) host.disk host'.disk ∧
      Finding directory name n host'.disk found' todo kept := by
  obtain ⟨hlast, hnext⟩ := h.next_spec
  obtain ⟨d, hunlink, -, hopened, hframe, hfiled⟩ := h.filed.unlinked
  rw [h.filed.path v (List.mem_cons_self ..)] at hunlink
  refine ⟨⟨found.segments, found.next v.segment.index⟩, { host with
      disk := d
      events := .incompleteRemoved v.segment.index :: host.events }, ?_, hframe, ?_⟩
  · have hrun : Host.onDisk (Disk.unlink (Path.join directory
        (SegmentName.ofIndex name v.segment.index)))
        { host with events := .incompleteRemoved v.segment.index :: host.events } = (.ok (),
        { host with disk := d, events := .incompleteRemoved v.segment.index :: host.events }) :=
      Host.onDisk_ok hunlink
    simp only [findSegment, if_neg hlast, h.admitted, Task.bind_run, Task.pure_run, Task.get_run, hc,
      Task.ofExcept_ok, hrun, Host.report_run]
    rfl
  · refine ⟨hfiled, h.segments, h.handles, fun u hu => ?_, fun u hu => ?_, hnext⟩
    · exact hopened ▸ h.handle_lt u hu
    · exact Nat.lt_of_lt_of_le (h.index_lt u hu) (Nat.le_max_left ..)

theorem Finding.found_run (h : Finding directory name n host.disk found (v :: todo) kept)
    {o : Option Footer}
    (hc : Segment.completeFooter? v.segment.index (host.disk.content v.segment.slot) = .ok o) :
    ∃ found' host' kept', findSegment directory found (SegmentName.ofIndex name v.segment.index)
        v.segment.slot v.segment.index host = (.ok found', host') ∧
      Finding directory name n host'.disk found' todo kept' ∧
      kept'.map Volume.shutBoth =
        ((v.footer? host.disk).map (Prod.mk v)).toList.map Volume.shutBoth ++ kept.map Volume.shutBoth ∧
      ∀ u ∈ todo, host'.disk.content u.segment.slot = host.disk.content u.segment.slot := by
  have hlook : v.footer? host.disk = o := by
    rw [Volume.footer?, hc]
    rfl
  rw [hlook]
  cases o with
  | some f =>
      obtain ⟨found', host', hrun, hdisk, hf⟩ := h.open_run hc
      exact ⟨found', host', _, hrun, hf, rfl, fun u _ => by rw [hdisk]; rfl⟩
  | none =>
      obtain ⟨found', host', hrun, hframe, hf⟩ := h.drop_run hc
      refine ⟨found', host', kept, hrun, hf, rfl, fun u hu => ?_⟩
      have hstored := h.filed.stored u (List.mem_cons_of_mem _ (List.mem_append_left _ hu))
      refine hframe.content _ (fun he => ?_) hstored.slot_lt
      exact (List.nodup_cons.mp h.filed.slots).1
        (List.mem_map.mpr ⟨u, List.mem_append_left _ hu, he⟩)

/-- The search opens the files that end in a footer and removes the others. -/
theorem findSegments_cases {entries : List (String × Node)}
    (h : Finding directory name n host.disk found todo kept)
    (hall : ListedFile.all name entries = todo.map (Volume.listing name)) :
    (∃ e host' v e', findSegments directory name entries found host = (.error e, host') ∧ v ∈ todo ∧
      Segment.completeFooter? v.segment.index (host.disk.content v.segment.slot) = .error e') ∨
    ∃ found' host' kept', findSegments directory name entries found host = (.ok found', host') ∧
      Finding directory name n host'.disk found' [] kept' ∧
      (kept'.map Volume.shutBoth).Perm
        ((Volume.footed host.disk todo ++ kept).map Volume.shutBoth) ∧
      ∀ v ∈ todo, ∀ e, Segment.completeFooter? v.segment.index
        (host.disk.content v.segment.slot) ≠ .error e := by
  induction entries generalizing host found todo kept with
  | nil =>
      have htodo : todo = [] := by simpa [ListedFile.all] using hall.symm
      subst htodo
      exact .inr ⟨found, host, kept, rfl, h, List.Perm.refl _, by simp⟩
  | cons entry entries ih =>
      obtain ⟨file, node⟩ := entry
      cases node with
      | directory number => exact ih h hall
      | file slot =>
          cases hindex : SegmentName.index? name file with
          | none =>
              rw [ListedFile.all_cons_other hindex] at hall
              simp only [findSegments, hindex]
              exact ih h hall
          | some index =>
              rw [ListedFile.all_cons_file hindex] at hall
              cases todo with
              | nil => cases hall
              | cons v todo =>
                  obtain ⟨hfirst, hrest⟩ := List.cons.inj hall
                  cases hfirst
                  simp only [findSegments, hindex, Task.bind_run]
                  cases hc : Segment.completeFooter? v.segment.index
                      (host.disk.content v.segment.slot) with
                  | error e =>
                      refine .inl ⟨e, host, v, e, ?_, List.mem_cons_self .., hc⟩
                      simp only [findSegment, if_neg h.next_spec.1, h.admitted, Task.bind_run,
                        Task.get_run, hc, Task.ofExcept_ok, Task.ofExcept_error, id]
                  | ok o =>
                      obtain ⟨found', host', kept', hrun, hf, hkept, hcontent⟩ := h.found_run hc
                      simp only [hrun]
                      rcases ih hf hrest with ⟨e, host'', u, e', hgo, hu, he⟩ |
                        ⟨found'', host'', kept'', hgo, hf', hp, hsound⟩
                      · exact .inl ⟨e, host'', u, e', hgo, List.mem_cons_of_mem _ hu,
                          hcontent u hu ▸ he⟩
                      · refine .inr ⟨found'', host'', kept'', hgo, hf', hp.trans ?_, fun u hu e => ?_⟩
                        · rw [Volume.footed_congr hcontent, Volume.footed_cons]
                          simp only [List.map_append, hkept]
                          rw [List.append_assoc]
                          exact List.perm_append_comm_assoc ..
                        · rcases List.mem_cons.mp hu with rfl | hu
                          · simp [hc]
                          · exact hcontent u hu ▸ hsound u hu e

theorem removeCovered_run {cs ps : List (Volume × Footer)}
    (h : Filed directory name n host.disk ((cs ++ ps).map Prod.fst)) :
    ∃ host', removeCovered (cs.map fun p => (Volume.taken p).segment) host = (.ok (), host') ∧
      host'.disk.opened = host.disk.opened ∧
      Filed directory name n host'.disk (ps.map Prod.fst) := by
  induction cs generalizing host with
  | nil => exact ⟨host, rfl, rfl, h⟩
  | cons c cs ih =>
      obtain ⟨d, -, hunlink, hopened, -, hfiled⟩ := Filed.unlinked h
      let removed : Host := { host with
        disk := d
        events := .coveredRemoved c.1.segment.index :: host.events }
      have hremoved : Filed directory name n removed.disk ((cs ++ ps).map Prod.fst) := hfiled
      obtain ⟨host', hrun, hopened', hfiled'⟩ := ih hremoved
      refine ⟨host', ?_, hopened'.trans hopened, hfiled'⟩
      have hstep : Host.onDisk (Disk.unlinkIfPresent (Volume.taken c).segment.path)
          { host with events := .coveredRemoved (Volume.taken c).segment.index :: host.events } =
          (.ok (), removed) := Host.onDisk_ok hunlink
      simp only [List.map_cons, removeCovered, Task.bind_run, Host.report_run, hstep, hrun]

theorem isCovered_perm {ss ts : List Segment} (h : ss.Perm ts) (s : Segment) :
    isCovered ss s = isCovered ts s := by
  cases hf : s.footer with
  | none => simp [isCovered, hf]
  | some f =>
      simp only [isCovered, hf, Option.any_some]
      rw [Bool.eq_iff_iff, List.any_eq_true, List.any_eq_true]
      simp only [h.mem_iff]

theorem isCovered_shut (ws : List Volume) (v : Volume) :
    isCovered ((ws.map Volume.shut).map Volume.segment) v.shut.segment =
      isCovered (ws.map Volume.segment) v.segment := by
  simp only [isCovered, List.any_map]
  rfl

def uncovered (vs : List Volume) : List Volume :=
  vs.filter fun v => !isCovered (vs.map Volume.segment) v.segment

theorem uncovered_perm {ws : List Volume} (h : (ws.map Volume.shut).Perm (vs.map Volume.shut)) :
    ((uncovered ws).map Volume.shut).Perm ((uncovered vs).map Volume.shut) := by
  have hmap (us : List Volume) : (uncovered us).map Volume.shut = (us.map Volume.shut).filter
      fun v => !isCovered ((us.map Volume.shut).map Volume.segment) v.segment := by
    rw [List.filter_map]
    refine congrArg _ (List.filter_congr fun v _ => ?_)
    exact congrArg _ (isCovered_shut us v).symm
  rw [hmap, hmap]
  refine (h.filter _).trans (List.Perm.of_eq (List.filter_congr fun v _ => ?_))
  rw [isCovered_perm (h.map _)]

def tabled (a : Archive) (vs : List Volume) : Archive :=
  { a with segments := vs.map Volume.segment }

/--
The archive `a` has written the volumes `own` since it was opened. It found those of `finds` then,
each taken to be complete with a footer.
-/
structure Owns (a : Archive) (d : Disk) (own : List Volume) (finds : List (Volume × Footer)) :
    Prop where
  kept : Kept (a.tabled (own ++ finds.map Prod.fst)) d (own ++ finds.map Prod.fst)
  table : a.segments.Perm ((own ++ finds.map Volume.taken).map Volume.segment)

def untouched (finds : List (Volume × Footer)) : List (Volume × Footer) :=
  finds.filter fun p =>
    !isCovered ((finds.map Volume.taken).map Volume.segment) (Volume.taken p).segment

theorem init_of_found {entries : List (String × Node)} {finds : List (Volume × Footer)}
    (hhome : host.disk.find directory = .ok (some (.directory n)))
    (hentries : host.disk.entries n = entries) {host' : Host}
    (hrun : findSegments directory name entries ⟨[], 0⟩ host = (.ok found, host'))
    (h : Finding directory name n host'.disk found [] finds) :
    ∃ a host'', init directory name host = (.ok a, host'') ∧ a.directory = directory ∧
      a.name = name ∧ a.writer = none ∧ a.nextIndex.toNat ≤ Location.maxSegments ∧
      Owns a host''.disk [] (untouched finds) := by
  let covered := fun s => isCovered found.segments s
  let seen := fun p : Volume × Footer => (Volume.taken p).segment
  have hsegments : found.segments.Perm (finds.map seen) := h.segments
  have hp : (found.segments.filter covered).Perm ((finds.filter fun p => covered (seen p)).map seen) :=
    (hsegments.filter covered).trans (List.Perm.of_eq List.filter_map)
  obtain ⟨cs, hcs, hmap⟩ := exists_map_of_perm hp
  have hsame (s : Segment) :
      covered s = isCovered ((finds.map Volume.taken).map Volume.segment) s := by
    rw [List.map_map]
    exact isCovered_perm hsegments s
  have hsplit : finds.Perm (cs ++ untouched finds) := by
    have hparts := List.filter_append_perm (fun p => covered (seen p)) finds
    have hrest : (finds.filter fun p => !covered (seen p)) = untouched finds :=
      List.filter_congr fun p _ => by rw [hsame]
    rw [hrest] at hparts
    exact hparts.symm.trans (hcs.symm.append_right _)
  have hfound : Filed directory name n host'.disk (finds.map Prod.fst) := h.filed
  obtain ⟨host'', hremove, hopened, hfiled⟩ := removeCovered_run (hfound.perm (hsplit.map _))
  have hsub : (untouched finds).Sublist finds := List.filter_sublist
  have hnext : (UInt32.ofNat found.nextIndex).toNat = found.nextIndex := by
    have hle := h.next_le
    rw [Location.maxSegments_eq] at hle
    exact UInt32.toNat_ofNat_of_lt' (Nat.lt_of_le_of_lt hle (by decide))
  refine ⟨{
      directory := directory
      name := name
      segments := found.segments.filter fun s => !covered s
      writer := none
      nextIndex := UInt32.ofNat found.nextIndex
      counts := ⟨(found.segments.filter fun s => !covered s).length, 0, 0, 0⟩ },
    host'', ?_, rfl, rfl, rfl, Nat.le_trans (Nat.le_of_eq hnext) h.next_le, ?_, ?_⟩
  · have hmake : Host.onDisk (Disk.makeDirectories directory) host = (.ok (), host) :=
      Host.onDisk_ok (Disk.makeDirectories_run hhome)
    have hlist : Host.onDisk (Disk.list directory) host = (.ok entries, host) :=
      hentries ▸ Host.onDisk_ok (Disk.list_run hhome)
    have hsync : Host.onDisk (Disk.sync directory) host'' = (.ok (), host'') :=
      Host.onDisk_ok (Disk.sync_run hfiled.housed.home)
    have hcovered : removeCovered (found.segments.filter (isCovered found.segments)) host' =
        (.ok (), host'') := by
      rw [← hremove, ← hmap]
    simp only [init, Task.bind_run, hmake, hlist, hrun, hcovered, hsync]
    rfl
  · refine Filed.kept (a := ⟨directory, name, _, _, _, _⟩) hfiled (List.Perm.refl _) ?_
      (fun v hv => ?_) (fun v hv => ?_)
    · rw [List.nil_append, List.map_map]
      exact h.handles.sublist (hsub.map _)
    · obtain ⟨p, hp, rfl⟩ := List.mem_map.mp hv
      exact hopened ▸ h.handle_lt p (hsub.subset hp)
    · obtain ⟨p, hp, rfl⟩ := List.mem_map.mp hv
      exact Nat.lt_of_lt_of_eq (h.index_lt p (hsub.subset hp)) hnext.symm
  · refine (hsegments.filter _).trans (List.Perm.of_eq ?_)
    rw [List.filter_map, List.nil_append, List.map_map]
    exact congrArg _ (List.filter_congr fun p _ => by simp [hsame, seen])

/-- Opening an archive finds the files that end in a footer, unless a footer is out of range. -/
theorem Filed.init_cases (h : Filed directory name n host.disk vs) (hn : SegmentName.Plain name) :
    (∃ e host' v e', init directory name host = (.error e, host') ∧ v ∈ vs ∧
      Segment.completeFooter? v.segment.index (host.disk.content v.segment.slot) = .error e') ∨
    ∃ a host' finds, init directory name host = (.ok a, host') ∧ a.directory = directory ∧
      a.name = name ∧ a.writer = none ∧ a.nextIndex.toNat ≤ Location.maxSegments ∧
      Owns a host'.disk [] (untouched finds) ∧
      (finds.map Volume.shutBoth).Perm ((Volume.footed host.disk vs).map Volume.shutBoth) ∧
      ∀ v ∈ vs, ∀ e, Segment.completeFooter? v.segment.index
        (host.disk.content v.segment.slot) ≠ .error e := by
  obtain ⟨todo, htodo, hall⟩ := exists_map_of_perm (h.housed.listed hn)
  have hstart : Finding directory name n host.disk ⟨[], 0⟩ todo [] :=
    ⟨by rw [List.map_nil, List.append_nil]; exact h.perm htodo.symm, List.Perm.refl _,
      List.Pairwise.nil, by simp, by simp, Nat.zero_le _⟩
  rcases findSegments_cases hstart hall with ⟨e, host1, v, e', hrun, hv, he⟩ |
    ⟨found, host1, finds, hrun, hf, hp, hsound⟩
  · refine .inl ⟨e, host1, v, e', ?_, htodo.mem_iff.mp hv, he⟩
    have hmake : Host.onDisk (Disk.makeDirectories directory) host = (.ok (), host) :=
      Host.onDisk_ok (Disk.makeDirectories_run h.housed.home)
    have hlist : Host.onDisk (Disk.list directory) host = (.ok (host.disk.entries n), host) :=
      Host.onDisk_ok (Disk.list_run h.housed.home)
    simp only [init, Task.bind_run, hmake, hlist, hrun]
  · obtain ⟨a, host2, hinit, hdir, hname, hwriter, hnext, ho⟩ :=
      init_of_found h.housed.home rfl hrun hf
    refine .inr ⟨a, host2, finds, hinit, hdir, hname, hwriter, hnext, ho, hp.trans ?_,
      fun v hv => hsound v (htodo.mem_iff.mpr hv)⟩
    rw [List.append_nil]
    exact (htodo.flatMap_right _).map _

theorem Owns.holds_finds {a : Archive} {d : Disk} {finds : List (Volume × Footer)}
    (h : Owns a d [] (untouched finds)) (hc : ∀ p ∈ finds, p.1.segment.footer = some p.2) :
    Kept a d (uncovered (finds.map Prod.fst)) := by
  have htaken (ps : List (Volume × Footer)) (hps : ps.Sublist finds) :
      ps.map Volume.taken = ps.map Prod.fst :=
    List.map_congr_left fun p hp => Volume.taken_eq (hc p (hps.subset hp))
  have hsub : (untouched finds).Sublist finds := List.filter_sublist
  have huntouched : (untouched finds).map Prod.fst = uncovered (finds.map Prod.fst) := by
    rw [uncovered, List.filter_map, untouched, htaken finds (List.Sublist.refl _)]
    refine congrArg _ (List.filter_congr fun p hp => ?_)
    rw [Volume.taken_eq (hc p hp)]
    rfl
  have htable := h.table
  rw [List.nil_append, htaken _ hsub, huntouched] at htable
  have hkept := h.kept
  rw [List.nil_append, huntouched] at hkept
  obtain ⟨m, hm⟩ := hkept.housed
  exact ⟨⟨hkept.holds.sound, hkept.holds.home, htable, hkept.holds.stored, hkept.holds.apart,
    hkept.holds.handle_lt, hkept.holds.index_lt, hkept.holds.path⟩, m, hm⟩

/--
Opening an archive finds its completed volumes again, except for those whose data another one holds.
Volumes that were never completed go.
-/
theorem Filed.init_run (h : Filed directory name n host.disk vs) (hn : SegmentName.Plain name)
    (hopen : ∀ v ∈ vs, v.segment.isComplete ∨
      Segment.completeFooter? v.segment.index (host.disk.content v.segment.slot) = .ok none) :
    ∃ a host' ws, init directory name host = (.ok a, host') ∧ a.directory = directory ∧
      a.name = name ∧ a.writer = none ∧ a.nextIndex.toNat ≤ Location.maxSegments ∧
      Kept a host'.disk ws ∧
      (ws.map Volume.shut).Perm
        ((uncovered (vs.filter (·.segment.isComplete))).map Volume.shut) := by
  have hfooter (v : Volume) (hv : v ∈ vs) : Segment.completeFooter? v.segment.index
      (host.disk.content v.segment.slot) = .ok v.segment.footer := by
    rcases hopen v hv with hc | hc
    · obtain ⟨f, hf⟩ := Option.isSome_iff_exists.mp hc
      rw [(h.stored v hv).completeFooter?_eq hf, hf]
    · cases hf : v.segment.footer with
      | none => exact hc
      | some f =>
          rw [(h.stored v hv).completeFooter?_eq hf] at hc
          cases hc
  rcases h.init_cases hn with ⟨e, host', v, e', -, hv, he⟩ |
    ⟨a, host', finds, hinit, hdir, hname, hwriter, hnext, ho, hp, -⟩
  · rw [hfooter v hv] at he
    cases he
  · have hfooted (us : List Volume) (hus : us.Sublist vs) :
        (Volume.footed host.disk us).map Prod.fst = us.filter (·.segment.isComplete) ∧
          ∀ p ∈ Volume.footed host.disk us, p.1.segment.footer = some p.2 := by
      induction us with
      | nil => exact ⟨rfl, by simp [Volume.footed]⟩
      | cons u us ih =>
          obtain ⟨hmap, hall⟩ := ih ((List.sublist_cons_self u us).trans hus)
          have hu : u.footer? host.disk = u.segment.footer := by
            rw [Volume.footer?, hfooter u (hus.subset (List.mem_cons_self ..))]
            rfl
          rw [Volume.footed_cons, hu]
          cases hf : u.segment.footer with
          | none =>
              rw [List.filter_cons_of_neg (by simp [Segment.isComplete, hf])]
              exact ⟨hmap, hall⟩
          | some f =>
              rw [List.filter_cons_of_pos (by simp [Segment.isComplete, hf])]
              refine ⟨congrArg (u :: ·) hmap, fun p hp => ?_⟩
              rcases List.mem_cons.mp hp with rfl | hp
              · exact hf
              · exact hall p hp
    obtain ⟨hmap, hall⟩ := hfooted vs (List.Sublist.refl _)
    refine ⟨a, host', uncovered (finds.map Prod.fst), hinit, hdir, hname, hwriter, hnext,
      ho.holds_finds fun p hpf => ?_, uncovered_perm ?_⟩
    · obtain ⟨q, hq, he⟩ := List.mem_map.mp (hp.mem_iff.mp (List.mem_map_of_mem hpf))
      have hfoot := hall q hq
      obtain ⟨hfst, hsnd⟩ := Prod.ext_iff.mp he
      have hshut : p.1.segment.footer = q.1.segment.footer :=
        congrArg (fun v => v.segment.footer) hfst.symm
      rw [hshut, hfoot]
      exact congrArg some hsnd
    · rw [← hmap, List.map_map, List.map_map]
      have hfst := hp.map Prod.fst
      rw [List.map_map, List.map_map] at hfst
      exact hfst

/-- A name that is no piece of a path is never found in the directory. -/
theorem Filed.init_foreign (h : Filed directory name n host.disk vs)
    (hn : ¬SegmentName.Plain name) :
    ∃ a host', init directory name host = (.ok a, host') ∧ a.directory = directory ∧
      a.name = name ∧ a.writer = none ∧ a.nextIndex.toNat ≤ Location.maxSegments ∧
      Kept a host'.disk [] := by
  have hall : ListedFile.all name (host.disk.entries n) = ([] : List Volume).map
      (Volume.listing name) := by
    rw [List.map_nil, List.eq_nil_iff_forall_not_mem]
    intro f hf
    obtain ⟨he, hi⟩ := ListedFile.name_of_mem hf
    exact hn (SegmentName.plain_of_index? hi (h.housed.plain _ he))
  have hstart : Finding directory name n host.disk ⟨[], 0⟩ [] [] :=
    ⟨⟨h.sound, ⟨h.housed.home, h.housed.plain, fun hp => absurd hp hn⟩, by simp, List.Pairwise.nil,
      List.Pairwise.nil, by simp⟩, List.Perm.refl _, List.Pairwise.nil, by simp, by simp,
      Nat.zero_le _⟩
  rcases findSegments_cases hstart hall with ⟨e, host1, v, e', -, hv, -⟩ |
    ⟨found, host1, finds, hrun, hf, hp, -⟩
  · cases hv
  · have hfinds : finds = [] := by simpa [Volume.footed] using hp.eq_nil
    subst hfinds
    obtain ⟨a, host2, hinit, hdir, hname, hwriter, hnext, ho⟩ :=
      init_of_found h.housed.home rfl hrun hf
    exact ⟨a, host2, hinit, hdir, hname, hwriter, hnext, ho.holds_finds (by simp)⟩

end Archive

end MeteredStorage
