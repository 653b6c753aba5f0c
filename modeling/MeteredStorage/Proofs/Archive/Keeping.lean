import MeteredStorage.Proofs.Archive.Holding
import MeteredStorage.Proofs.Archive.Listing

namespace MeteredStorage.Archive

/-- The archive holds the volumes `vs`, and its directory lists them. -/
structure Kept (a : Archive) (d : Disk) (vs : List Volume) : Prop where
  holds : Holds a d vs
  housed : ∃ n, Housed a.directory a.name d n vs

variable {s : Hosted Archive} {v : Volume} {vs ws : List Volume}

theorem Kept.perm {a : Archive} {d : Disk} (h : Kept a d vs) (hp : vs.Perm ws) : Kept a d ws := by
  obtain ⟨n, hn⟩ := h.housed
  exact ⟨h.holds.perm hp, n, hn.perm hp⟩

theorem Kept.congr {a a' : Archive} {d : Disk} (h : Kept a d vs)
    (hdir : a'.directory = a.directory) (hname : a'.name = a.name)
    (hseg : a'.segments = a.segments) (hnext : a'.nextIndex = a.nextIndex) : Kept a' d vs := by
  have hpath (i : UInt32) : a'.pathOf i = a.pathOf i := by rw [pathOf, pathOf, hdir, hname]
  obtain ⟨n, hn⟩ := h.housed
  refine ⟨⟨h.holds.sound, hdir ▸ h.holds.home, hseg ▸ h.holds.segments, h.holds.stored, h.holds.apart,
    h.holds.handle_lt, hnext ▸ h.holds.index_lt, fun v hv => ?_⟩, n, hdir ▸ hname ▸ hn⟩
  rw [hpath, h.holds.path v hv]

theorem Kept.syncDirectory_run (h : Kept s.self s.host.disk vs) :
    syncDirectory s = (.ok (), s) :=
  h.holds.home.elim fun _ hn => syncDirectory_of_home hn

/-- Creating a segment fails and uses up an index, or adds an empty volume. -/
theorem Kept.createSegment_cases (h : Kept s.self s.host.disk vs)
    (hnext : s.self.nextIndex.toNat + 1 < 0x100000000) :
    (∃ e s', createSegment s = (.error e, s') ∧
      s'.self = { s.self with nextIndex := s.self.nextIndex + 1 } ∧
      Kept s'.self s'.host.disk vs ∧
      (e = .indicesExhausted ↔ Location.maxSegments ≤ s.self.nextIndex.toNat)) ∨
    ∃ v s', createSegment s = (.ok v.segment, s') ∧ v.records = [] ∧ v.segment.footer = none ∧
      v.segment.index = s.self.nextIndex ∧ s.self.nextIndex.toNat < Location.maxSegments ∧
      s'.self = s.self.entered v.segment ∧ Kept s'.self s'.host.disk (v :: vs) := by
  obtain ⟨n, hn⟩ := h.housed
  rcases Archive.createSegment_cases s with ⟨e, s', hrun, hself, hdisk, he⟩ |
    ⟨trail, name, s', hmax, ht, hm, hrun, hself, hdisk⟩
  · refine .inl ⟨e, s', hrun, hself, ?_, he⟩
    rw [hself, hdisk]
    exact ⟨h.holds.skipped hnext, n, hn⟩
  · refine .inr ⟨⟨_, []⟩, s', hrun, rfl, rfl, rfl, hmax, hself, ?_⟩
    rw [hself, hdisk]
    exact ⟨h.holds.entered hmax ht hm, n, hn.created h.holds.sound ht hm rfl⟩

theorem Kept.append {a : Archive} {d : Disk} (h : Kept a d (v :: vs))
    (hopen : v.segment.footer = none) {r : Record} (hfits : r.Fits)
    (hsize : v.dataSize + r.size ≤ Location.maxOffset) :
    Kept a (d.changed (.write v.segment.slot v.dataSize r.encode)) (v.push r :: vs) := by
  obtain ⟨n, hn⟩ := h.housed
  exact ⟨h.holds.append hopen hfits hsize, n, hn.keep (Disk.changed_write ..).keeps rfl rfl⟩

theorem Kept.finishSegment_run (h : Kept s.self s.host.disk (v :: vs))
    (hopen : v.segment.footer = none) {f : Footer} (hf : Volume.Describes f v) :
    ∃ s', finishSegment v.segment f s = (.ok (), s') ∧ s'.self = s.self.finished v.segment f ∧
      Kept s'.self s'.host.disk (v.finished f :: vs) := by
  obtain ⟨n, hn⟩ := h.housed
  refine ⟨_, Archive.finishSegment_run s v.segment f, rfl, h.holds.finished hopen hf, n,
    hn.keep ?_ rfl rfl⟩
  exact (Disk.changed_finish ..).keeps

theorem Kept.removeSegment_run (h : Kept s.self s.host.disk (v :: vs)) :
    ∃ s', removeSegment v.segment s = (.ok (), s') ∧ s'.self = s.self.struck v.segment.index ∧
      Kept s'.self s'.host.disk vs := by
  obtain ⟨n, hn⟩ := h.housed
  obtain ⟨trail, name, ht, hm, hrun⟩ := h.holds.removeSegment_run
  refine ⟨_, hrun, rfl, h.holds.struck (Disk.meaning_eq_ok hm).2, n, ?_⟩
  rw [h.holds.path v (List.mem_cons_self ..)] at ht
  exact hn.unlinked ht hm fun u hu => ((List.pairwise_cons.mp h.holds.apart).1 u hu).index

end MeteredStorage.Archive
