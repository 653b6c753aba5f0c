import MeteredStorage.Proofs.Archive.Listing

namespace MeteredStorage

open SegmentName (Plain)

namespace Disk

theorem Sound.congr {d d' : Disk} (h : Sound d) (hd : d'.directories = d.directories) : Sound d' where
  root := hd ▸ h.root
  number_lt p n hn := by
    rw [hd]
    refine h.number_lt p n ?_
    rwa [node?, entries, hd] at hn

theorem HasFile.congr {d d' : Disk} {path : Path} {slot : Nat} (h : d.HasFile path slot)
    (hd : d'.directories = d.directories) : d'.HasFile path slot := by
  obtain ⟨trail, name, ht, hm⟩ := h
  refine ⟨trail, name, (target_congr hd path).trans ht, ?_⟩
  rw [← hm, meaning, meaning, node?, node?, entries, entries, hd]

end Disk

namespace SegmentName

theorem ending_inj {i j : UInt32} {cs : List Char} (hi : ending i <:+ cs) (hj : ending j <:+ cs) :
    i = j := by
  have hword (k : UInt32) : '_' ∉ Decimal.padded 8 k.toNat ++ extension := by
    intro hm
    rcases List.mem_append.mp hm with hm | hm
    · exact absurd (Decimal.isDigit_of_mem_padded hm) (by decide)
    · exact absurd hm (by decide)
  -- the longer of the two endings would have a second underscore
  have hle {i j : UInt32} (h : ending i <:+ ending j) : i = j := by
    obtain ⟨front, hf⟩ := h
    cases front with
    | nil =>
        have he : ofIndex "" i = ofIndex "" j := String.ext (by simpa [toList_ofIndex] using hf)
        exact ofIndex_inj he
    | cons c front =>
        obtain ⟨-, he⟩ := List.cons.inj hf
        exact absurd (he ▸ List.mem_append_right front (List.mem_cons_self ..)) (hword j)
  rcases List.suffix_or_suffix_of_suffix hi hj with h | h
  · exact hle h
  · exact (hle h).symm

end SegmentName

def Segment.listing (archive : String) (s : Segment) : ListedFile :=
  ⟨SegmentName.ofIndex archive s.index, s.slot, s.index⟩

namespace Archive

structure Lodged (directory : Path) (name : String) (d : Disk) (f : ListedFile) : Prop where
  named : f.name = SegmentName.ofIndex name f.index
  file : d.HasFile (Path.join directory f.name) f.slot
  slot_lt : f.slot < d.contents.length

/--
Directory `n` is that of the archive and holds no other directories. The files that it lists, each
once, and the files `fs` lie at the paths of their segments.
-/
structure Lodges (directory : Path) (name : String) (n : Nat) (fs : List ListedFile) (d : Disk) :
    Prop where
  sound : d.Sound
  home : d.find directory = .ok (some (.directory n))
  flat : ∀ e ∈ d.entries n, ∃ slot, e.2 = .file slot
  plain : ∀ f ∈ ListedFile.all name (d.entries n), Plain name
  nodup : ((ListedFile.all name (d.entries n)).map ListedFile.index).Nodup
  lodged : ∀ f ∈ ListedFile.all name (d.entries n) ++ fs, Lodged directory name d f

variable {directory : Path} {name file : String} {d d' : Disk} {n slot : Nat} {i j : UInt32}
  {f : ListedFile} {fs gs : List ListedFile} {trail : Trail}

theorem index_of_target {d d' : Disk} {trail trail' : Trail}
    (hi : d.target (Path.join directory (SegmentName.ofIndex name i)) = .ok (.name trail file false))
    (hj : d'.target (Path.join directory (SegmentName.ofIndex name j)) =
      .ok (.name trail' file false)) : i = j := by
  exact SegmentName.ending_inj (target_ending hi).2 (target_ending hj).2

theorem Lodged.congr (h : Lodged directory name d f) (hd : d'.directories = d.directories)
    (hl : d'.contents.length = d.contents.length) : Lodged directory name d' f :=
  ⟨h.named, h.file.congr hd, hl ▸ h.slot_lt⟩

theorem Lodged.frame (h : Lodged directory name d f) (hf : Disk.Frame (fun _ => True) d d') :
    Lodged directory name d' f :=
  ⟨h.named, h.file.frame hf trivial, Nat.lt_of_lt_of_le h.slot_lt hf.length⟩

theorem Lodged.unlinked (h : Lodged directory name d f)
    (ht : d.target (Path.join directory (SegmentName.ofIndex name j)) = .ok (.name trail file false))
    (hn : d.node? (Trail.place trail file) = some (.file slot)) (hne : f.index ≠ j) :
    Lodged directory name (d.changed (.unlink (Trail.place trail file))) f := by
  obtain ⟨reached, last, hreached, hm⟩ := h.file
  have hframe := Disk.frame_unlinked hn
  obtain ⟨hsize, hnode⟩ := Disk.meaning_eq_ok hm
  refine ⟨h.named, ⟨reached, last, Disk.target_mono hframe.keeps hreached, ?_⟩, h.slot_lt⟩
  rw [Disk.meaning_of_node hsize, Disk.node?_unlinked, if_neg, hnode]
  intro hp
  rw [h.named] at hreached
  have hlast : last = file := congrArg Place.name hp
  exact hne (index_of_target (hlast ▸ hreached) ht)

namespace Lodges

theorem mono (h : Lodges directory name n fs d) (hg : ∀ f ∈ gs, f ∈ fs) :
    Lodges directory name n gs d := by
  refine ⟨h.sound, h.home, h.flat, h.plain, h.nodup, fun f hf => h.lodged f ?_⟩
  rcases List.mem_append.mp hf with hf | hf
  · exact List.mem_append_left _ hf
  · exact List.mem_append_right _ (hg f hf)

theorem bare (h : Lodges directory name n fs d) : Lodges directory name n [] d :=
  h.mono fun _ hf => absurd hf List.not_mem_nil

theorem congr (h : Lodges directory name n fs d) (hd : d'.directories = d.directories)
    (hl : d'.contents.length = d.contents.length) : Lodges directory name n fs d' := by
  have he : d'.entries n = d.entries n := by rw [Disk.entries, Disk.entries, hd]
  refine ⟨h.sound.congr hd, (Disk.find_congr hd _).trans h.home, he ▸ h.flat, he ▸ h.plain,
    he ▸ h.nodup, ?_⟩
  rw [he]
  exact fun f hf => (h.lodged f hf).congr hd hl

theorem target_eq (h : Lodges directory name n fs d) (hn : Plain name)
    (ht : d.target (Path.join directory (SegmentName.ofIndex name i)) = .ok (.name trail file false)) :
    file = SegmentName.ofIndex name i ∧ Trail.number trail = n := by
  obtain ⟨reached, he, hnum⟩ := target_home h.home hn ht
  cases he
  exact ⟨rfl, hnum⟩

/-- No file of the archive is where one could be created. -/
theorem index_ne (h : Lodges directory name n fs d)
    (ht : d.target (Path.join directory (SegmentName.ofIndex name i)) = .ok (.name trail file false))
    (hm : d.meaning trail file = .ok none) :
    ∀ f ∈ ListedFile.all name (d.entries n) ++ fs, f.index ≠ i := by
  rintro f hf rfl
  have hlodged := h.lodged f hf
  obtain ⟨reached, last, hreached, hnode⟩ := hlodged.file
  rw [hlodged.named, ht] at hreached
  cases hreached
  rw [hm] at hnode
  cases hnode

/-- What a created file adds to the files that the directory lists. -/
theorem entries_created (h : Lodges directory name n fs d)
    (ht : d.target (Path.join directory (SegmentName.ofIndex name i)) =
      .ok (.name trail file false)) :
    ∃ gs, ListedFile.all name ((d.created (Trail.place trail file)).entries n) =
        ListedFile.all name (d.entries n) ++ gs ∧
      (gs = [] ∨ gs = [⟨SegmentName.ofIndex name i, d.contents.length, i⟩] ∧ Plain name) := by
  rw [Disk.entries_created]
  split
  · refine ⟨_, List.filterMap_append, ?_⟩
    cases hindex : SegmentName.index? name file with
    | none => exact .inl (by simp [ListedFile.listed?, Trail.place, hindex])
    | some k =>
        have hn : Plain name := SegmentName.plain_of_index? hindex (target_ending ht).1
        obtain ⟨rfl, -⟩ := h.target_eq hn ht
        exact .inr ⟨by simp [ListedFile.listed?, Trail.place, SegmentName.index?_ofIndex], hn⟩
  · exact ⟨[], (List.append_nil _).symm, .inl rfl⟩

theorem created (h : Lodges directory name n fs d)
    (ht : d.target (Path.join directory (SegmentName.ofIndex name i)) = .ok (.name trail file false))
    (hm : d.meaning trail file = .ok none) :
    Lodges directory name n (⟨SegmentName.ofIndex name i, d.contents.length, i⟩ :: fs)
      (d.created (Trail.place trail file)) := by
  obtain ⟨hsize, hnone⟩ := Disk.meaning_eq_ok hm
  have hplace := h.sound.target_lt ht
  have hframe := Disk.frame_created hplace hnone
  have hnew : Lodged directory name (d.created (Trail.place trail file))
      ⟨SegmentName.ofIndex name i, d.contents.length, i⟩ := by
    refine ⟨rfl, ⟨trail, file, Disk.target_mono hframe.keeps ht, ?_⟩, ?_⟩
    · rw [Disk.meaning_of_node hsize, Disk.node?_created hplace hnone, if_pos rfl]
    · rw [Disk.length_created]
      exact Nat.lt_succ_self _
  obtain ⟨gs, hall, hgs⟩ := h.entries_created ht
  refine ⟨h.sound.frame hframe, Disk.find_directory_mono hframe.keeps h.home, fun e he => ?_, ?_, ?_,
    ?_⟩
  · rw [Disk.entries_created] at he
    split at he
    · rcases List.mem_append.mp he with he | he
      · exact h.flat e he
      · exact ⟨_, by rw [List.mem_singleton.mp he]⟩
    · exact h.flat e he
  · rw [hall]
    intro f hf
    rcases List.mem_append.mp hf with hf | hf
    · exact h.plain f hf
    · rcases hgs with rfl | ⟨-, hn⟩
      · cases hf
      · exact hn
  · rw [hall, List.map_append]
    rcases hgs with rfl | ⟨rfl, -⟩
    · simpa using h.nodup
    · refine List.nodup_append.mpr ⟨h.nodup, by simp, ?_⟩
      intro k hk l hl
      obtain ⟨f, hf, rfl⟩ := List.mem_map.mp hk
      rw [List.map_singleton, List.mem_singleton] at hl
      exact hl ▸ h.index_ne ht hm f (List.mem_append_left _ hf)
  · rw [hall]
    intro f hf
    rcases List.mem_append.mp hf with hf | hf
    · rcases List.mem_append.mp hf with hf | hf
      · exact (h.lodged f (List.mem_append_left _ hf)).frame hframe
      · rcases hgs with rfl | ⟨rfl, -⟩
        · cases hf
        · exact List.mem_singleton.mp hf ▸ hnew
    · rcases List.mem_cons.mp hf with rfl | hf
      · exact hnew
      · exact (h.lodged f (List.mem_append_right _ hf)).frame hframe

theorem unlinked (h : Lodges directory name n fs d)
    (ht : d.target (Path.join directory (SegmentName.ofIndex name j)) = .ok (.name trail file false))
    (hn : d.node? (Trail.place trail file) = some (.file slot)) (hfs : ∀ f ∈ fs, f.index ≠ j) :
    Lodges directory name n fs (d.changed (.unlink (Trail.place trail file))) := by
  have hframe := Disk.frame_unlinked hn
  have hlisted : ∀ f ∈ ListedFile.all name ((d.changed (.unlink (Trail.place trail file))).entries n),
      f ∈ ListedFile.all name (d.entries n) ∧ f.index ≠ j := by
    intro f hf
    rw [Disk.entries_unlinked] at hf
    split at hf
    · rw [ListedFile.all_filter, List.mem_filter] at hf
      obtain ⟨hf, hne⟩ := hf
      obtain ⟨rfl, -⟩ := h.target_eq (h.plain f hf) ht
      refine ⟨hf, fun he => ?_⟩
      have hnamed := (h.lodged f (List.mem_append_left _ hf)).named
      rw [he] at hnamed
      simp [hnamed, Trail.place] at hne
    · rename_i hother
      obtain ⟨-, hnum⟩ := h.target_eq (h.plain f hf) ht
      exact absurd hnum.symm hother
  have hsub : (ListedFile.all name ((d.changed (.unlink (Trail.place trail file))).entries n)).Sublist
      (ListedFile.all name (d.entries n)) := by
    rw [Disk.entries_unlinked]
    split
    · exact List.filter_sublist.filterMap _
    · exact List.Sublist.refl _
  refine ⟨h.sound.frame hframe, Disk.find_directory_mono hframe.keeps h.home, fun e he => ?_,
    fun f hf => h.plain f (hlisted f hf).1, h.nodup.sublist (hsub.map _), fun f hf => ?_⟩
  · rw [Disk.entries_unlinked] at he
    split at he
    · exact h.flat e (List.mem_filter.mp he).1
    · exact h.flat e he
  rcases List.mem_append.mp hf with hf | hf
  · obtain ⟨hold, hne⟩ := hlisted f hf
    exact (h.lodged f (List.mem_append_left _ hold)).unlinked ht hn hne
  · exact (h.lodged f (List.mem_append_right _ hf)).unlinked ht hn (hfs f hf)

end Lodges

end Archive

end MeteredStorage
