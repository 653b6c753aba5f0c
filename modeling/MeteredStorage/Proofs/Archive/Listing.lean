import MeteredStorage.Proofs.Archive.Volume
import MeteredStorage.Proofs.Disk.Below
import MeteredStorage.Proofs.Segment.Name

namespace MeteredStorage

open SegmentName (Plain)

namespace Path

theorem join_plain (directory : Path) {text : String} (h : Plain text) :
    join directory text = unclosed directory ++ [text] := by
  rw [join, SegmentName.ofText_of_plain h]
  split
  · rename_i heq
    cases heq
  · rfl

theorem join_ofIndex (directory : Path) (name : String) (index : UInt32) :
    ∃ outer last, Plain last ∧ SegmentName.ending index <:+ last.toList ∧
      join directory (SegmentName.ofIndex name index) = outer ++ [last] := by
  obtain ⟨outer, last, hplain, hlast, hp⟩ := SegmentName.ofText_ofIndex name index
  rw [join, hp]
  split
  · rename_i piece pieces heq
    cases outer with
    | nil => cases heq
    | cons first outer =>
        exact ⟨outer, last, hplain, hlast, (List.cons.inj heq).2.symm⟩
  · exact ⟨unclosed directory ++ outer, last, hplain, hlast, (List.append_assoc ..).symm⟩

end Path

structure ListedFile where
  name : String
  slot : Nat
  index : UInt32
  deriving DecidableEq

namespace ListedFile

def listed? (archive : String) : String × Node → Option ListedFile
  | (file, .file slot) => (SegmentName.index? archive file).map fun index => ⟨file, slot, index⟩
  | (_, .directory _) => none

def all (archive : String) (entries : List (String × Node)) : List ListedFile :=
  entries.filterMap (listed? archive)

theorem all_cons_file {archive file : String} {index : UInt32}
    (h : SegmentName.index? archive file = some index) (slot : Nat) (entries : List (String × Node)) :
    all archive ((file, .file slot) :: entries) = ⟨file, slot, index⟩ :: all archive entries := by
  simp [all, listed?, h]

theorem all_cons_other {archive file : String} (h : SegmentName.index? archive file = none)
    (slot : Nat) (entries : List (String × Node)) :
    all archive ((file, .file slot) :: entries) = all archive entries := by
  simp [all, listed?, h]

theorem name_of_mem {archive : String} {entries : List (String × Node)} {f : ListedFile}
    (h : f ∈ all archive entries) : (f.name, Node.file f.slot) ∈ entries ∧
      SegmentName.index? archive f.name = some f.index := by
  obtain ⟨⟨file, node⟩, he, hf⟩ := List.mem_filterMap.mp h
  cases node with
  | directory number => cases hf
  | file slot =>
      obtain ⟨index, hi, rfl⟩ := Option.map_eq_some_iff.mp hf
      exact ⟨he, hi⟩

theorem mem_all_iff {archive : String} {entries : List (String × Node)} {f : ListedFile} :
    f ∈ all archive entries ↔ (f.name, Node.file f.slot) ∈ entries ∧
      SegmentName.index? archive f.name = some f.index := by
  refine ⟨name_of_mem, fun ⟨he, hi⟩ => List.mem_filterMap.mpr ⟨_, he, ?_⟩⟩
  rw [listed?, hi]
  rfl

theorem all_filter (archive name : String) (entries : List (String × Node)) :
    all archive (entries.filter (·.1 != name)) = (all archive entries).filter (·.name != name) := by
  induction entries with
  | nil => rfl
  | cons e entries ih =>
      have hname (f : ListedFile) (hf : listed? archive e = some f) : f.name = e.1 := by
        obtain ⟨file, node⟩ := e
        cases node with
        | directory number => cases hf
        | file slot =>
            obtain ⟨index, -, rfl⟩ := Option.map_eq_some_iff.mp hf
            rfl
      simp only [all] at ih ⊢
      rw [List.filterMap_cons]
      by_cases h : e.1 = name
      · rw [List.filter_cons_of_neg (by simp [h]), ih]
        cases hf : listed? archive e with
        | none => rfl
        | some f => simp [hname f hf, h]
      · rw [List.filter_cons_of_pos (by simp [h]), List.filterMap_cons, ih]
        cases hf : listed? archive e with
        | none => rfl
        | some f => simp [hname f hf, h]

end ListedFile

namespace Volume

def listing (archive : String) (v : Volume) : ListedFile :=
  ⟨SegmentName.ofIndex archive v.segment.index, v.segment.slot, v.segment.index⟩

end Volume

namespace Archive

structure Housed (directory : Path) (name : String) (d : Disk) (n : Nat) (vs : List Volume) :
    Prop where
  home : d.find directory = .ok (some (.directory n))
  plain : ∀ e ∈ d.entries n, Plain e.1
  listed : Plain name →
    (ListedFile.all name (d.entries n)).Perm (vs.map (Volume.listing name))

variable {directory : Path} {name file : String} {d d' : Disk} {n : Nat} {vs : List Volume}
  {v : Volume} {trail : Trail} {index : UInt32}

theorem Housed.perm {ws : List Volume} (h : Housed directory name d n vs) (hp : vs.Perm ws) :
    Housed directory name d n ws :=
  ⟨h.home, h.plain, fun hn => (h.listed hn).trans (hp.map _)⟩

theorem target_ending
    (ht : d.target (Path.join directory (SegmentName.ofIndex name index)) =
      .ok (.name trail file false)) : Plain file ∧ SegmentName.ending index <:+ file.toList := by
  obtain ⟨outer, last, hplain, hlast, hj⟩ := Path.join_ofIndex directory name index
  have hmark : '_' ∈ last.toList := hlast.subset (List.mem_cons_self ..)
  have hne (text : String) (h : '_' ∉ text.toList) : last ≠ text := by
    rintro rfl
    exact h hmark
  rw [hj] at ht
  obtain ⟨reached, -, he⟩ := Disk.target_concat (hne "" (by decide)) (hne "." (by decide))
    (hne ".." (by decide)) ht
  cases he
  exact ⟨hplain, hlast⟩

theorem target_join (hf : Plain file) (hi : SegmentName.index? name file = some index) {t : Target}
    (ht : d.target (Path.join directory file) = .ok t) :
    ∃ trail, d.walk [] (Path.unclosed directory) = .ok trail ∧ t = .name trail file false := by
  obtain ⟨rest, -, hlist⟩ := SegmentName.split_of_index? hi
  have hmark : '_' ∈ file.toList := hlist ▸ List.mem_append_right _ (List.mem_cons_self ..)
  have hne (text : String) (hm : '_' ∉ text.toList) : file ≠ text := by
    intro he
    exact hm (he ▸ hmark)
  rw [Path.join_plain directory hf] at ht
  exact Disk.target_concat (hne "" (by decide)) (hne "." (by decide)) (hne ".." (by decide)) ht

theorem target_home (h : d.find directory = .ok (some (.directory n))) (hn : Plain name) {t : Target}
    (ht : d.target (Path.join directory (SegmentName.ofIndex name index)) = .ok t) :
    ∃ trail, t = .name trail (SegmentName.ofIndex name index) false ∧ Trail.number trail = n := by
  obtain ⟨trail, hw, rfl⟩ :=
    target_join (SegmentName.plain_ofIndex hn index) (SegmentName.index?_ofIndex name index) ht
  obtain ⟨reached, hr, hnum⟩ := Disk.walk_of_find h
  rw [hr] at hw
  cases hw
  exact ⟨trail, rfl, hnum⟩

theorem Housed.keep {ws : List Volume} (h : Housed directory name d n vs) (hk : Disk.Keeps d d')
    (he : d'.entries n = d.entries n)
    (hl : ws.map (Volume.listing name) = vs.map (Volume.listing name)) :
    Housed directory name d' n ws where
  home := Disk.find_directory_mono hk h.home
  plain := he ▸ h.plain
  listed hn := by
    rw [he, hl]
    exact h.listed hn

theorem Housed.created (h : Housed directory name d n vs) (hd : d.Sound)
    (ht : d.target (Path.join directory (SegmentName.ofIndex name v.segment.index)) =
      .ok (.name trail file false))
    (hm : d.meaning trail file = .ok none) (hslot : v.segment.slot = d.contents.length) :
    Housed directory name (d.created (Trail.place trail file)) n (v :: vs) := by
  have hframe := Disk.frame_created (hd.target_lt ht) (Disk.meaning_eq_ok hm).2
  refine ⟨Disk.find_directory_mono hframe.keeps h.home, ?_, ?_⟩
  · intro e he
    rw [Disk.entries_created] at he
    split at he
    · rcases List.mem_append.mp he with he | he
      · exact h.plain e he
      · rw [List.mem_singleton.mp he]
        exact (target_ending ht).1
    · exact h.plain e he
  · intro hn
    obtain ⟨reached, he, hnum⟩ := target_home h.home hn ht
    cases he
    rw [Disk.entries_created, if_pos ⟨hnum.symm, hd.find_lt h.home⟩, ListedFile.all,
      List.filterMap_append]
    have hnew : [((Trail.place trail (SegmentName.ofIndex name v.segment.index)).name,
        Node.file d.contents.length)].filterMap (ListedFile.listed? name) =
        [Volume.listing name v] := by
      simp [ListedFile.listed?, Trail.place, SegmentName.index?_ofIndex, Volume.listing, hslot]
    rw [hnew]
    exact List.perm_append_comm.trans ((h.listed hn).cons _)

theorem Housed.unlinked (h : Housed directory name d n (v :: vs))
    (ht : d.target (Path.join directory (SegmentName.ofIndex name v.segment.index)) =
      .ok (.name trail file false))
    (hm : d.meaning trail file = .ok (some (.file v.segment.slot)))
    (ha : ∀ u ∈ vs, v.segment.index ≠ u.segment.index) :
    Housed directory name (d.changed (.unlink (Trail.place trail file))) n vs := by
  have hframe := Disk.frame_unlinked (Disk.meaning_eq_ok hm).2
  refine ⟨Disk.find_directory_mono hframe.keeps h.home, ?_, ?_⟩
  · intro e he
    rw [Disk.entries_unlinked] at he
    split at he
    · exact h.plain e (List.mem_filter.mp he).1
    · exact h.plain e he
  · intro hn
    obtain ⟨reached, he, hnum⟩ := target_home h.home hn ht
    cases he
    have hdir : n = (Trail.place trail (SegmentName.ofIndex name v.segment.index)).directory :=
      hnum.symm
    rw [Disk.entries_unlinked, if_pos hdir, ListedFile.all_filter]
    refine ((h.listed hn).filter _).trans (List.Perm.of_eq ?_)
    rw [List.map_cons, List.filter_cons_of_neg (by simp [Volume.listing, Trail.place]),
      List.filter_eq_self]
    intro f hf
    obtain ⟨u, hu, rfl⟩ := List.mem_map.mp hf
    have hne : SegmentName.ofIndex name u.segment.index ≠
        SegmentName.ofIndex name v.segment.index := fun he =>
      ha u hu (SegmentName.ofIndex_inj he).symm
    simpa [Volume.listing, Trail.place] using hne

end Archive

end MeteredStorage
