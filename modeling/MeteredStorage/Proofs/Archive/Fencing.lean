import MeteredStorage.Proofs.Archive.Listing
import MeteredStorage.Proofs.Disk.Hiding

namespace MeteredStorage

open SegmentName (Plain index?)
open MeteredStorage.Task (Respects)

abbrev Hold := Path × Nat

def Segment.hold (s : Segment) : Hold := (s.path, s.slot)

/-- An archive that works from the disk `start` on, and the other archive. -/
structure Fence where
  directory : Path
  name : String
  other : String
  /-- The contents that the archive has made. -/
  made : List Nat
  /-- The contents that the other archive has made. -/
  foreign : List Nat
  start : Disk
  plain : Plain name
  different : name ≠ other
  foreign_lt : ∀ slot ∈ foreign, slot < start.contents.length

namespace Fence

variable {F : Fence} {d d' : Disk} {hs ks : List Hold} {slot : Nat} {fill : Nat → Bytes}
  {p : Place}
  {file : String} {path : Path}

/-- A path at which the archive expects one of its files. -/
def Reaches (F : Fence) (path : Path) : Prop :=
  ∃ file, Plain file ∧ (index? F.name file).isSome ∧ path = Path.join F.directory file

def Owns (F : Fence) (h : Hold) : Prop := h.2 ∉ F.foreign ∧ F.Reaches h.1

structure Allows (F : Fence) (slot : Nat) (file : String) : Prop where
  plain : Plain file
  other : slot ∈ F.foreign → (index? F.other file).isSome
  own : slot ∈ F.made ∨ F.start.contents.length ≤ slot → (index? F.name file).isSome

structure Guards (F : Fence) (hs : List Hold) (d : Disk) : Prop where
  entries : ∀ n file slot, (file, Node.file slot) ∈ d.entries n →
    slot < d.contents.length ∧ F.Allows slot file
  names : ∀ p, ∀ slot ∈ F.foreign,
    (d.node? p = some (.file slot) ↔ F.start.node? p = some (.file slot))
  length : F.start.contents.length ≤ d.contents.length
  holds : ∀ h ∈ hs, F.Owns h ∧ h.2 < d.contents.length

theorem not_foreign (h : F.Allows slot file) (hi : (index? F.name file).isSome) :
    slot ∉ F.foreign := by
  intro hslot
  obtain ⟨i, hi⟩ := Option.isSome_iff_exists.mp hi
  obtain ⟨j, hj⟩ := Option.isSome_iff_exists.mp (h.other hslot)
  -- A file name spells an index for one of the two names only.
  exact F.different (SegmentName.name_of_index? hi hj)

theorem reaches_pathOf (F : Fence) (index : UInt32) :
    F.Reaches (Path.join F.directory (SegmentName.ofIndex F.name index)) := by
  refine ⟨_, SegmentName.plain_ofIndex F.plain index, ?_, rfl⟩
  rw [SegmentName.index?_ofIndex]
  rfl

theorem Reaches.target (h : F.Reaches path) {t : Target} (ht : d.target path = .ok t) :
    ∃ trail file, t = .name trail file false ∧ Plain file ∧ (index? F.name file).isSome ∧
      path = Path.join F.directory file := by
  obtain ⟨file, hplain, hindex, rfl⟩ := h
  obtain ⟨i, hi⟩ := Option.isSome_iff_exists.mp hindex
  obtain ⟨trail, -, rfl⟩ := Archive.target_join hplain hi ht
  exact ⟨trail, file, rfl, hplain, hindex, rfl⟩

theorem Guards.not_foreign_of_find (h : F.Guards hs d) (hp : F.Reaches path)
    (hf : d.find path = .ok (some (.file slot))) : slot ∉ F.foreign := by
  cases ht : d.target path with
  | error e => simp [Disk.find, ht, bind, Except.bind] at hf
  | ok t =>
      obtain ⟨trail, file, rfl, -, hindex, -⟩ := hp.target ht
      rw [Disk.find_name ht] at hf
      cases hm : d.meaning trail file with
      | error e => simp [hm] at hf
      | ok node =>
          rw [hm] at hf
          obtain ⟨-, hnode⟩ := Disk.meaning_eq_ok hm
          rcases node with _ | n | other
          · cases hf
          · cases hf
          · cases hf
            exact not_foreign (h.entries _ _ _ (Disk.mem_of_node? hnode)).2 hindex

theorem Guards.lt (h : F.Guards hs d) (hslot : slot ∈ F.foreign) : slot < d.contents.length :=
  Nat.lt_of_lt_of_le (F.foreign_lt slot hslot) h.length

theorem Guards.mono (h : F.Guards hs d) (hk : ∀ k ∈ ks, k ∈ hs) : F.Guards ks d :=
  ⟨h.entries, h.names, h.length, fun k hm => h.holds k (hk k hm)⟩

theorem Guards.congr (h : F.Guards hs d) (hd : d'.directories = d.directories)
    (hc : d'.contents.length = d.contents.length) : F.Guards hs d' := by
  have hentries (n : Nat) : d'.entries n = d.entries n := by
    rw [Disk.entries, Disk.entries, hd]
  constructor
  · intro n file slot hm
    rw [hc]
    exact h.entries n file slot (hentries n ▸ hm)
  · intro p slot hslot
    rw [Disk.node?, hentries]
    exact h.names p slot hslot
  · rw [hc]
    exact h.length
  · rw [hc]
    exact h.holds

theorem Guards.created (h : F.Guards hs d) (hn : d.node? p = none) (hp : Plain p.name)
    (hi : (index? F.name p.name).isSome)
    (hpath : path = Path.join F.directory p.name) :
    F.Guards ((path, d.contents.length) :: hs) (d.created p) := by
  -- The new content lies behind all that was there when the archive began to work.
  have hfresh : d.contents.length ∉ F.foreign := fun hm => Nat.lt_irrefl _ (h.lt hm)
  constructor
  · intro n file slot hm
    rw [Disk.length_created]
    rw [Disk.entries_created] at hm
    have hcases : (file, Node.file slot) ∈ d.entries n ∨
        file = p.name ∧ slot = d.contents.length := by
      split at hm
      · simpa using hm
      · exact .inl hm
    rcases hcases with hm | ⟨rfl, rfl⟩
    · obtain ⟨hlt, hallows⟩ := h.entries n file slot hm
      exact ⟨Nat.lt_succ_of_lt hlt, hallows⟩
    · exact ⟨Nat.lt_succ_self _, hp, fun hm => absurd hm hfresh, fun _ => hi⟩
  · intro q slot hslot
    rw [← h.names q slot hslot]
    refine Disk.node?_insertNode_iff hn ?_ q
    intro he
    cases he
    exact hfresh hslot
  · rw [Disk.length_created]
    exact Nat.le_succ_of_le h.length
  · intro k hk
    rw [Disk.length_created]
    rcases List.mem_cons.mp hk with rfl | hk
    · exact ⟨⟨hfresh, p.name, hp, hi, hpath⟩, Nat.lt_succ_self _⟩
    · exact ⟨(h.holds k hk).1, Nat.lt_succ_of_lt (h.holds k hk).2⟩

theorem Guards.unlinked (h : F.Guards hs d) {node : Node} (hn : d.node? p = some node)
    (hnode : ∀ slot ∈ F.foreign, node ≠ .file slot) : F.Guards hs (d.changed (.unlink p)) := by
  constructor
  · intro n file slot hm
    refine h.entries n file slot ?_
    rw [Disk.entries_unlinked] at hm
    split at hm
    · exact (List.mem_filter.mp hm).1
    · exact hm
  · intro q slot hslot
    rw [← h.names q slot hslot, Disk.node?_unlinked]
    split
    · rename_i hq
      rw [hq, hn]
      simp [hnode slot hslot]
    · rfl
  · exact h.length
  · exact h.holds

theorem Guards.directoryMade (h : F.Guards hs d) (hn : d.node? p = none) :
    F.Guards hs (d.changed (.makeDirectory p)) := by
  constructor
  · intro n file slot hm
    refine h.entries n file slot ?_
    rw [Disk.entries_directoryMade, Disk.entries_insertNode] at hm
    split at hm
    · simpa using hm
    · exact hm
  · intro q slot hslot
    rw [← h.names q slot hslot, Disk.node?, Disk.entries_directoryMade]
    exact Disk.node?_insertNode_iff hn (by simp) q
  · exact h.length
  · exact h.holds

theorem respects_content {own : Nat} (hown : own ∉ F.foreign) {change : Change} {f : Bytes → Bytes}
    (hchange : ∀ d : Disk, d.apply change = d.setContent own (f (d.content own))) :
    Respects (Disk.rewrite F.foreign fill) (F.Guards hs) (fun _ => F.Guards hs)
      (Disk.perform change) := by
  apply Respects.modify
  · intro d h
    rw [hchange]
    exact h.congr rfl (by simp [Disk.setContent])
  · intro d _
    rw [hchange, hchange, Disk.content_rewrite_of_not_mem hown, Disk.setContent_rewrite hown]
    rfl

theorem respects_openHandle :
    Respects (Disk.rewrite F.foreign fill) (F.Guards hs) (fun _ => F.Guards hs) Disk.openHandle :=
  Respects.modifyGet (fun _ h => h.congr rfl rfl) fun _ _ => rfl

theorem respects_createFile (hp : F.Reaches path) :
    Respects (Disk.rewrite F.foreign fill) (F.Guards hs)
      (fun r => F.Guards ((path, r.1) :: hs)) (Disk.createFile path) := by
  refine (Disk.blind_createFile path).of_outcome (fun d h _ hslot => h.lt hslot) fun d h => ?_
  rcases Disk.createFile_cases path d with ⟨e, hrun⟩ | ⟨trail, name, ht, hm, hrun⟩
  · rw [hrun]
    exact ⟨h, nofun⟩
  · obtain ⟨_, file, he, hplain, hindex, hpath⟩ := hp.target ht
    cases he
    have hc := h.created (Disk.meaning_eq_ok hm).2 hplain hindex hpath
    rw [hrun]
    refine ⟨hc.mono fun k hk => List.mem_cons_of_mem _ hk, fun r hr => ?_⟩
    cases hr
    exact hc

theorem respects_unlink (hp : F.Reaches path) :
    Respects (Disk.rewrite F.foreign fill) (F.Guards hs) (fun _ => F.Guards hs) (Disk.unlink path) := by
  refine (Disk.blind_unlink path).of_outcome (fun d h _ hslot => h.lt hslot) fun d h => ?_
  rcases Disk.unlink_cases path d with ⟨e, hrun⟩ | ⟨trail, name, own, ht, hm, hrun⟩
  · rw [hrun]
    exact ⟨h, nofun⟩
  · obtain ⟨_, file, he, -, hindex, -⟩ := hp.target ht
    cases he
    have hnode := (Disk.meaning_eq_ok hm).2
    have hown := not_foreign (h.entries _ _ _ (Disk.mem_of_node? hnode)).2 hindex
    have hu := h.unlinked hnode fun slot hs he => by
      cases he
      exact hown hs
    rw [hrun]
    exact ⟨hu, fun _ _ => hu⟩

theorem respects_unlinkIfPresent (hp : F.Reaches path) :
    Respects (Disk.rewrite F.foreign fill) (F.Guards hs) (fun _ => F.Guards hs)
      (Disk.unlinkIfPresent path) := by
  refine (respects_unlink hp).attempt.andThen fun r => ?_
  split
  · exact Respects.pure fun _ h => h
  · exact Respects.pure fun _ h => h
  · exact Respects.throw _

theorem respects_makeDirectory (path : Path) :
    Respects (Disk.rewrite F.foreign fill) (F.Guards hs) (fun _ => F.Guards hs)
      (Disk.makeDirectory path) := by
  refine (Disk.blind_makeDirectory path).of_outcome (fun d h _ hslot => h.lt hslot) fun d h => ?_
  rcases Disk.makeDirectory_cases path d with ⟨e, hrun⟩ | ⟨p, hn, hrun⟩
  · rw [hrun]
    exact ⟨h, nofun⟩
  · rw [hrun]
    exact ⟨h.directoryMade hn, fun _ _ => h.directoryMade hn⟩

theorem respects_ensureDirectory (path : Path) :
    Respects (Disk.rewrite F.foreign fill) (F.Guards hs) (fun _ => F.Guards hs)
      (Disk.ensureDirectory path) := by
  refine (respects_makeDirectory path).attempt.andThen fun r => ?_
  cases r with
  | ok _ => exact Respects.pure fun _ h => h
  | error e =>
      apply Respects.get
      · intro d _
        rw [Disk.isDirectory, Disk.find_rewrite]
        rfl
      · intro d _
        split
        · exact Respects.pure fun _ h => h
        · exact Respects.throw _

theorem respects_makeFirst (paths : List Path) :
    Respects (Disk.rewrite F.foreign fill) (F.Guards hs) (fun _ => F.Guards hs)
      (Disk.makeFirst paths) := by
  induction paths with
  | nil => exact Respects.throw _
  | cons path outer ih =>
      refine (respects_ensureDirectory path).attempt.andThen fun r => ?_
      split
      · exact Respects.pure fun _ h => h
      · exact ih.andThen fun _ => respects_ensureDirectory path
      · exact Respects.throw _

theorem respects_sync (path : Path) :
    Respects (Disk.rewrite F.foreign fill) (F.Guards hs) (fun _ => F.Guards hs) (Disk.sync path) := by
  refine (Disk.respects_look path).andThen fun node => ?_
  cases node with
  | none => exact Respects.throw _
  | some _ => exact Respects.pure fun _ h => h

theorem respects_removeDirectory (path : Path) :
    Respects (Disk.rewrite F.foreign fill) (F.Guards hs) (fun _ => F.Guards hs)
      (Disk.removeDirectory path) := by
  refine (Disk.blind_removeDirectory path).of_outcome (fun d h _ hslot => h.lt hslot) fun d h => ?_
  rcases Disk.removeDirectory_cases path d with ⟨e, hrun⟩ | ⟨p, n, hn, hrun⟩
  · rw [hrun]
    exact ⟨h, nofun⟩
  · have hu := h.unlinked hn (by simp)
    rw [hrun]
    exact ⟨hu, fun _ _ => hu⟩

def listedHolds (F : Fence) (files : List (String × Node)) : List Hold :=
  (ListedFile.all F.name files).map fun f => (Path.join F.directory f.name, f.slot)

theorem Guards.listed (h : F.Guards hs d) (n : Nat) :
    F.Guards (F.listedHolds (d.entries n) ++ hs) d := by
  refine ⟨h.entries, h.names, h.length, fun k hk => ?_⟩
  rcases List.mem_append.mp hk with hk | hk
  · obtain ⟨f, hf, rfl⟩ := List.mem_map.mp hk
    obtain ⟨hm, hi⟩ := ListedFile.name_of_mem hf
    obtain ⟨hlt, hallows⟩ := h.entries _ _ _ hm
    have hindex : (index? F.name f.name).isSome := by rw [hi]; rfl
    exact ⟨⟨not_foreign hallows hindex, f.name, hallows.plain, hindex, rfl⟩, hlt⟩
  · exact h.holds k hk

theorem respects_list (path : Path) :
    Respects (Disk.rewrite F.foreign fill) (F.Guards hs)
      (fun files => F.Guards (F.listedHolds files ++ hs)) (Disk.list path) := by
  refine (Disk.respects_look path).andThen fun node => ?_
  rcases node with _ | n | _
  · exact Respects.throw _
  · exact Respects.read (fun d h => h.listed n) fun _ _ => rfl
  · exact Respects.throw _

end Fence

end MeteredStorage
