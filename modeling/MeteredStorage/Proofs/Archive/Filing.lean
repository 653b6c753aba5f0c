import MeteredStorage.Proofs.Archive.Keeping
import MeteredStorage.Proofs.Disk.Losing

namespace MeteredStorage

theorem exists_map_of_perm {α β : Type} {f : α → β} {l : List β} {xs : List α}
    (h : l.Perm (xs.map f)) : ∃ ys : List α, ys.Perm xs ∧ l = ys.map f := by
  induction l generalizing xs with
  | nil =>
      have hx : xs = [] := by simpa using h.symm.eq_nil
      exact ⟨[], by rw [hx], rfl⟩
  | cons b l ih =>
      obtain ⟨x, hx, rfl⟩ := List.mem_map.mp (h.mem_iff.mp (List.mem_cons_self ..))
      obtain ⟨front, back, rfl⟩ := List.append_of_mem hx
      rw [List.map_append, List.map_cons] at h
      have hrest := (h.trans List.perm_middle).cons_inv
      rw [← List.map_append] at hrest
      obtain ⟨ys, hys, rfl⟩ := ih hrest
      exact ⟨x :: ys, (hys.cons x).trans List.perm_middle.symm, rfl⟩

/-- A file that ends in a footer of its index and size looks completed, whatever is before it. -/
theorem Segment.completeFooter?_append {index : UInt32} {body : Bytes} {f : Footer}
    (hindex : f.index = index) (hsize : alignToPage f.dataSize.toNat = body.length)
    (hbound : body.length < 0x10000000000000000) :
    completeFooter? index (body ++ f.encode) = .ok (some f) := by
  have hlength : (body ++ f.encode).length = body.length + pageSize := by
    rw [List.length_append, Footer.length_encode]
  have hwhole : ¬(body.length + pageSize < pageSize ∨ (body.length + pageSize) % pageSize ≠ 0) := by
    rw [Nat.add_mod_right, ← hsize, alignToPage, Nat.mul_mod_left]
    omega
  unfold completeFooter?
  simp only [hlength, Nat.add_sub_cancel, List.drop_left, Footer.decode_encode, hindex, hsize]
  rw [if_neg hwhole, if_neg (by simp), if_neg (Nat.not_le.mpr hbound), if_pos trivial]

namespace Volume

def held (handle : Nat) (v : Volume) : Volume :=
  { v with segment := { v.segment with handle := handle } }

def shut (v : Volume) : Volume := v.held 0

theorem Stored.held {d : Disk} {v : Volume} (h : v.Stored d) (handle : Nat) :
    (v.held handle).Stored d where
  file := h.file
  slot_lt := h.slot_lt
  content := h.content
  index_lt := h.index_lt
  size_le := h.size_le
  fits := h.fits
  footer f hf :=
    have hd := h.footer f hf
    ⟨hd.index, hd.items, hd.dataSize, hd.session⟩

theorem Stored.content_eq {d : Disk} {v : Volume} (h : v.Stored d) {f : Footer}
    (hf : v.segment.footer = some f) :
    ∃ body, d.content v.segment.slot = body ++ f.encode ∧ body.length = alignToPage f.dataSize.toNat := by
  have hle := alignToPage_le v.dataSize
  refine ⟨Record.encodeAll v.records ++ Bytes.zeros (alignToPage v.dataSize - v.dataSize), ?_, ?_⟩
  · rw [h.content, bytes, hf, List.append_assoc]
  · rw [List.length_append, Record.length_encodeAll, Bytes.length_zeros, (h.footer f hf).dataSize]
    change v.dataSize + _ = _
    omega

theorem Stored.completeFooter?_eq {d : Disk} {v : Volume} (h : v.Stored d) {f : Footer}
    (hf : v.segment.footer = some f) :
    Segment.completeFooter? v.segment.index (d.content v.segment.slot) = .ok (some f) := by
  obtain ⟨body, hcontent, hlength⟩ := h.content_eq hf
  have hsize := h.size_le
  rw [hcontent]
  refine Segment.completeFooter?_append (h.footer f hf).index hlength.symm ?_
  rw [hlength, (h.footer f hf).dataSize]
  rw [Location.maxOffset_eq] at hsize
  simp only [alignToPage, pageSize]
  omega

theorem Stored.length_content {d : Disk} {v : Volume} (h : v.Stored d) (hc : v.segment.isComplete) :
    (d.content v.segment.slot).length = v.segment.size ∧ pageSize ∣ v.segment.size := by
  obtain ⟨f, hf⟩ := Option.isSome_iff_exists.mp hc
  obtain ⟨body, hcontent, hlength⟩ := h.content_eq hf
  have hsize : v.segment.size = alignToPage f.dataSize.toNat + pageSize := by
    rw [Segment.size, hf]
    rfl
  rw [hcontent, hsize, List.length_append, hlength, Footer.length_encode]
  exact ⟨rfl, Nat.dvd_add (Nat.dvd_mul_left ..) (Nat.dvd_refl _)⟩

end Volume

namespace Archive

/-- The volumes `vs` lie in directory `n`, which is that of the archive. -/
structure Filed (directory : Path) (name : String) (n : Nat) (d : Disk) (vs : List Volume) :
    Prop where
  sound : d.Sound
  housed : Housed directory name d n vs
  stored : ∀ v ∈ vs, v.Stored d
  indices : (vs.map (·.segment.index)).Nodup
  slots : (vs.map (·.segment.slot)).Nodup
  path : ∀ v ∈ vs,
    v.segment.path = Path.join directory (SegmentName.ofIndex name v.segment.index)

variable {directory : Path} {name : String} {n : Nat} {d : Disk} {vs ws : List Volume} {v : Volume}

theorem Kept.filed {a : Archive} (h : Kept a d vs) : ∃ n, Filed a.directory a.name n d vs := by
  obtain ⟨n, hn⟩ := h.housed
  exact ⟨n, h.holds.sound, hn, h.holds.stored,
    List.pairwise_map.mpr (h.holds.apart.imp fun ha => ha.index),
    List.pairwise_map.mpr (h.holds.apart.imp fun ha => ha.slot), h.holds.path⟩

theorem Filed.perm (h : Filed directory name n d vs) (hp : vs.Perm ws) :
    Filed directory name n d ws where
  sound := h.sound
  housed := h.housed.perm hp
  stored v hv := h.stored v (hp.mem_iff.mpr hv)
  indices := (hp.map _).nodup h.indices
  slots := (hp.map _).nodup h.slots
  path v hv := h.path v (hp.mem_iff.mpr hv)

/-- The volumes lie on every disk with the same names and contents. -/
theorem Filed.same {e : Disk} (h : Filed directory name n d vs) (hs : Disk.Same d e) :
    Filed directory name n e vs where
  sound := by
    refine ⟨hs.directories ▸ h.sound.root, fun p m hp => ?_⟩
    rw [hs.node?] at hp
    rw [hs.directories]
    exact h.sound.number_lt p m hp
  housed := h.housed.keep hs.keeps (hs.entries n) rfl
  stored v hv := by
    have hv := h.stored v hv
    refine ⟨hv.file.mono hs.keeps fun p hp => by rw [hs.node?, hp], hs.contents ▸ hv.slot_lt, ?_,
      hv.index_lt, hv.size_le, hv.fits, hv.footer⟩
    rw [hs.content, hv.content]
  indices := h.indices
  slots := h.slots
  path := h.path

def opening (d : Disk) : Disk := { d with opened := d.opened + 1 }

theorem frame_opening (d : Disk) : Disk.Frame (fun _ => True) d (opening d) :=
  ⟨fun _ _ => Iff.rfl, fun _ _ _ h => h, fun _ _ _ => rfl, Nat.le_refl _, rfl, Nat.le_succ _⟩

theorem Filed.opened (h : Filed directory name n d (v :: vs)) (handle : Nat) :
    Filed directory name n (opening d) (v.held handle :: vs) where
  sound := h.sound.frame (frame_opening d)
  housed := h.housed.keep (frame_opening d).keeps rfl rfl
  stored := by
    intro u hu
    rcases List.mem_cons.mp hu with rfl | hu
    · exact ((h.stored v (List.mem_cons_self ..)).frame (frame_opening d) trivial).held handle
    · exact (h.stored u (List.mem_cons_of_mem _ hu)).frame (frame_opening d) trivial
  indices := h.indices
  slots := h.slots
  path := by
    intro u hu
    rcases List.mem_cons.mp hu with rfl | hu
    · exact h.path v (List.mem_cons_self ..)
    · exact h.path u (List.mem_cons_of_mem _ hu)

theorem Filed.unlinked (h : Filed directory name n d (v :: vs)) :
    ∃ d', Disk.unlink v.segment.path d = (.ok (), d') ∧
      Disk.unlinkIfPresent v.segment.path d = (.ok (), d') ∧ d'.opened = d.opened ∧
      Disk.Frame (· ≠ v.segment.slot) d d' ∧ Filed directory name n d' vs := by
  obtain ⟨trail, file, ht, hm⟩ := (h.stored v (List.mem_cons_self ..)).file
  have hframe := Disk.frame_unlinked (Disk.meaning_eq_ok hm).2
  have hslot {u : Volume} (hu : u ∈ vs) : u.segment.slot ≠ v.segment.slot := fun he =>
    (List.nodup_cons.mp h.slots).1 (List.mem_map.mpr ⟨u, hu, he⟩)
  have hindex {u : Volume} (hu : u ∈ vs) : v.segment.index ≠ u.segment.index := fun he =>
    (List.nodup_cons.mp h.indices).1 (List.mem_map.mpr ⟨u, hu, he.symm⟩)
  refine ⟨_, Disk.unlink_run ht hm, Disk.unlinkIfPresent_run ht hm, rfl, hframe,
    h.sound.frame hframe, ?_, ?_, (List.nodup_cons.mp h.indices).2, (List.nodup_cons.mp h.slots).2,
    fun u hu => h.path u (List.mem_cons_of_mem _ hu)⟩
  · rw [h.path v (List.mem_cons_self ..)] at ht
    exact h.housed.unlinked ht hm fun u hu => hindex hu
  · exact fun u hu => (h.stored u (List.mem_cons_of_mem _ hu)).frame hframe (hslot hu)

/-- Volumes that lie in the directory and have handles of their own are held by an archive. -/
theorem Filed.kept {a : Archive} (h : Filed a.directory a.name n d vs)
    (hsegments : a.segments.Perm (vs.map Volume.segment))
    (hhandles : (vs.map (·.segment.handle)).Nodup) (hopened : ∀ v ∈ vs, v.segment.handle < d.opened)
    (hnext : ∀ v ∈ vs, v.segment.index.toNat < a.nextIndex.toNat) : Kept a d vs where
  holds := {
    sound := h.sound
    home := ⟨n, h.housed.home⟩
    segments := hsegments
    stored := h.stored
    apart := by
      have hi : vs.Pairwise fun u v => u.segment.index ≠ v.segment.index :=
        List.pairwise_map.mp h.indices
      have hs : vs.Pairwise fun u v => u.segment.slot ≠ v.segment.slot :=
        List.pairwise_map.mp h.slots
      have hh : vs.Pairwise fun u v => u.segment.handle ≠ v.segment.handle :=
        List.pairwise_map.mp hhandles
      exact (hi.and (hs.and hh)).imp fun hu => ⟨hu.1, hu.2.1, hu.2.2⟩
    handle_lt := hopened
    index_lt := hnext
    path := h.path }
  housed := ⟨n, h.housed⟩

end Archive

end MeteredStorage
