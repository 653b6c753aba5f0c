import MeteredStorage.Proofs.Archive.Confining

namespace MeteredStorage

open SegmentName (Plain index?)
open MeteredStorage.Task (Respects)

namespace ListedFile

def next (n : Nat) (fs : List ListedFile) : Nat := fs.foldl (fun n f => max n (f.index.toNat + 1)) n

end ListedFile

namespace Archive

variable {directory : Path} {name file : String} {found found' : Found} {slot : Nat} {index : UInt32}
  {host host' : Host} {a : Archive}

theorem findSegment_next
    (hgo : findSegment directory found file slot index host = (.ok found', host')) :
    found'.nextIndex = max found.nextIndex (index.toNat + 1) := by
  unfold findSegment at hgo
  split at hgo
  · cases hgo
  obtain ⟨_, _, -, hgo⟩ := Task.of_bind_ok hgo
  obtain ⟨h, _, -, hgo⟩ := Task.of_bind_ok hgo
  obtain ⟨footer, _, -, hgo⟩ := Task.of_bind_ok hgo
  cases footer with
  | some f =>
      obtain ⟨handle, _, -, hgo⟩ := Task.of_bind_ok hgo
      obtain ⟨_, _, -, hgo⟩ := Task.of_bind_ok hgo
      cases hgo
      rfl
  | none =>
      obtain ⟨_, _, -, hgo⟩ := Task.of_bind_ok hgo
      obtain ⟨_, _, -, hgo⟩ := Task.of_bind_ok hgo
      cases hgo
      rfl

theorem findSegments_next {files : List (String × Node)}
    (hgo : findSegments directory name files found host = (.ok found', host')) :
    found'.nextIndex = ListedFile.next found.nextIndex (ListedFile.all name files) := by
  induction files generalizing found host with
  | nil =>
      cases hgo
      rfl
  | cons e files ih =>
      obtain ⟨file, node⟩ := e
      cases node with
      | directory number => exact ih hgo
      | file slot =>
          unfold findSegments at hgo
          cases hi : index? name file with
          | none =>
              rw [hi] at hgo
              rw [ListedFile.all_cons_other hi]
              exact ih hgo
          | some index =>
              rw [hi] at hgo
              obtain ⟨mid, _, hfind, hgo⟩ := Task.of_bind_ok hgo
              have hnext := ih hgo
              rw [findSegment_next hfind] at hnext
              rw [ListedFile.all_cons_file hi]
              exact hnext

theorem eq_ok_of_onDisk {α : Type} {task : DiskTask α} {r : α}
    (h : Host.onDisk task host = (.ok r, host')) : task host.disk = (.ok r, host'.disk) := by
  simp only [Host.onDisk, Task.zoom] at h
  split at h
  · rename_i heq
    cases h
    exact heq
  · cases h

theorem init_found (hgo : init directory name host = (.ok a, host')) :
    ∃ files d found h h', (do Disk.makeDirectories directory; Disk.list directory : DiskTask _)
        host.disk = (.ok files, d) ∧
      findSegments directory name files ⟨[], 0⟩ h = (.ok found, h') ∧ a.name = name ∧
      a.nextIndex = UInt32.ofNat found.nextIndex := by
  obtain ⟨_, h1, hmake, hgo⟩ := Task.of_bind_ok hgo
  obtain ⟨files, h2, hlist, hgo⟩ := Task.of_bind_ok hgo
  obtain ⟨found, h3, hfind, hgo⟩ := Task.of_bind_ok hgo
  obtain ⟨_, h4, -, hgo⟩ := Task.of_bind_ok hgo
  obtain ⟨_, h5, -, hgo⟩ := Task.of_bind_ok hgo
  cases hgo
  refine ⟨files, h2.disk, found, h2, h3, ?_, hfind, rfl, rfl⟩
  rw [Task.bind_ok (eq_ok_of_onDisk hmake)]
  exact eq_ok_of_onDisk hlist

theorem init_next (hgo : init directory name host = (.ok a, host')) :
    ∃ files d, (do Disk.makeDirectories directory; Disk.list directory : DiskTask _) host.disk =
        (.ok files, d) ∧
      a.nextIndex = UInt32.ofNat (ListedFile.next 0 (ListedFile.all name files)) := by
  obtain ⟨files, d, found, h, h', hlist, hfind, -, hnext⟩ := init_found hgo
  exact ⟨files, d, hlist, by rw [hnext, findSegments_next hfind]⟩

end Archive

namespace Sharing

inductive Request
  | start
  | store (r : Record)
  | finish (minKey maxKey : Int64)
  | read (location : Int64) (part : Part) (buffer : Bytes)
  | prepare (files : List Segment)
  /-- Removes the inputs of a merge that has been prepared. -/
  | complete (k : Nat)
  | close
  | destroy

inductive Answer
  | done
  | stored (location : Int64)
  | read (result : Nat × Bytes)
  | prepared (m : Option Merge)

structure Tenant where
  archive : Archive
  merges : List Merge

namespace Request

def run (merges : List Merge) : Request → ArchiveTask Answer
  | start => do
    Archive.startWriting
    return .done
  | store r => return .stored (← Archive.store r)
  | finish minKey maxKey => do
    Archive.endWriting minKey maxKey
    return .done
  | read location part buffer => return .read (← Archive.readInto location part buffer)
  | prepare files => return .prepared (← Archive.prepareMerge files)
  | complete k =>
    match merges[k]? with
    | none => return .done
    | some m => do
      Archive.finishMerge m
      return .done
  | close => do
    Archive.close
    return .done
  | destroy => do
    Archive.destroy
    return .done

def pending (merges : List Merge) : Request → Except ArchiveError Answer → List Merge
  | complete k, _ => merges.eraseIdx k
  | _, .ok (.prepared (some m)) => m :: merges
  | _, _ => merges

end Request

structure Shared where
  host : Host
  tenant? : Bool → Option Tenant
  /-- The slots of the files that each of the two has made. -/
  made : Bool → List Nat

inductive Move
  /-- Opens the archive, also in the place of one that was open. -/
  | opens
  | asks (request : Request)
  | waits (clock : UInt64)

structure Pair where
  directory : Path
  name : Bool → String
  plain : ∀ i, Plain (name i)
  different : name false ≠ name true

namespace Shared

def worked (w : Shared) (i : Bool) (host : Host) (t : Option Tenant) : Shared where
  host := host
  tenant? j := if j = i then t else w.tenant? j
  made j :=
    if j = i then
      w.made i ++ List.range' w.host.disk.contents.length
        (host.disk.contents.length - w.host.disk.contents.length)
    else w.made j

def rewritten (slots : List Nat) (fill : Nat → Bytes) (w : Shared) : Shared :=
  { w with host := w.host.rewritten slots fill }

theorem worked_rewritten (w : Shared) (i : Bool) (host : Host) (t : Option Tenant)
    (slots : List Nat) (fill : Nat → Bytes) :
    (w.rewritten slots fill).worked i (host.rewritten slots fill) t =
      (w.worked i host t).rewritten slots fill := by
  simp only [worked, rewritten, Host.rewritten, Disk.length_rewrite]

end Shared

structure Orderly (d : Disk) : Prop where
  present : ∀ n file slot, (file, Node.file slot) ∈ d.entries n → slot < d.contents.length
  plain : ∀ n file slot, (file, Node.file slot) ∈ d.entries n → Plain file
  single : ∀ n m file other slot, (file, Node.file slot) ∈ d.entries n →
    (other, Node.file slot) ∈ d.entries m → file = other

namespace Pair

def begin (P : Pair) (host : Host) : Shared where
  host := host
  tenant? _ := none
  made i := (ListedFile.all (P.name i) host.disk.directories.toList.flatten).map ListedFile.slot

def move (P : Pair) (i : Bool) : Move → Shared → Except ArchiveError Answer × Shared
  | .opens, w =>
    match Archive.init P.directory (P.name i) w.host with
    | (.ok a, host) => (.ok .done, w.worked i host (some ⟨a, []⟩))
    | (.error e, host) => (.error e, w.worked i host (w.tenant? i))
  | .asks request, w =>
    match w.tenant? i with
    | none => (.ok .done, w)
    | some t =>
      let (r, s) := request.run t.merges ⟨t.archive, w.host⟩
      (r, w.worked i s.host (some ⟨s.self, request.pending t.merges r⟩))
  | .waits clock, w => (.ok .done, { w with host := { w.host with clock := clock } })

inductive Run (P : Pair) : Shared → Prop
  | begun {host : Host} (h : Orderly host.disk) : Run P (P.begin host)
  | moved {w : Shared} (h : Run P w) (i : Bool) (m : Move) : Run P (P.move i m w).2

/-- The archive of one name takes no notice of the files that the other has made. -/
structure Apart (P : Pair) (w : Shared) (i : Bool) : Prop where
  /-- No file is made by both. -/
  made : ∀ slot ∈ w.made i, slot ∉ w.made (!i)
  /-- What the archive has open is not of the other. -/
  opened : ∀ t, w.tenant? i = some t → ∀ h ∈ t.archive.holds ++ t.merges.flatMap Merge.holds,
    h.2 ∉ w.made (!i)
  /-- Neither is a completed segment, nor what its path leads to. -/
  completed : ∀ t, w.tenant? i = some t → ∀ x ∈ t.archive.completed, x.slot ∉ w.made (!i) ∧
    ∀ slot, w.host.disk.find x.path = .ok (some (.file slot)) → slot ∉ w.made (!i)
  oldest : ∀ t, w.tenant? i = some t → ∀ limit, ∀ x ∈ t.archive.oldest limit,
    x ∈ t.archive.completed
  replay : ∀ t, w.tenant? i = some t → ∀ fill,
    t.archive.replay (w.host.disk.rewrite (w.made (!i)) fill) = t.archive.replay w.host.disk
  /-- An opening counts the files of its own name, and the other has made none of them. -/
  index : ∀ a host, Archive.init P.directory (P.name i) w.host = (.ok a, host) →
    ∃ files d, (do Disk.makeDirectories P.directory; Disk.list P.directory : DiskTask _)
        w.host.disk = (.ok files, d) ∧
      (∀ f ∈ ListedFile.all (P.name i) files, f.slot ∉ w.made (!i)) ∧
      a.nextIndex = UInt32.ofNat (ListedFile.next 0 (ListedFile.all (P.name i) files))
  /-- Whatever the files of the other hold, all goes alike. -/
  blind : ∀ m fill, P.move i m (w.rewritten (w.made (!i)) fill) =
    ((P.move i m w).1, (P.move i m w).2.rewritten (w.made (!i)) fill)
  /-- The files of the other keep their contents and their names. -/
  keeps : ∀ m, ∀ slot ∈ w.made (!i),
    (P.move i m w).2.host.disk.content slot = w.host.disk.content slot ∧
    ∀ p, (P.move i m w).2.host.disk.node? p = some (.file slot) ↔
      w.host.disk.node? p = some (.file slot)
  /-- The other archive is as it was. -/
  other : ∀ m, (P.move i m w).2.tenant? (!i) = w.tenant? (!i) ∧
    (P.move i m w).2.made (!i) = w.made (!i)

end Pair

open Archive

variable {P : Pair} {w : Shared} {F : Fence} {i : Bool}

theorem mem_holds_eraseIdx {merges : List Merge} {k : Nat} {h : Hold}
    (hh : h ∈ (merges.eraseIdx k).flatMap Merge.holds) : h ∈ merges.flatMap Merge.holds := by
  obtain ⟨m, hm, hh⟩ := List.mem_flatMap.mp hh
  exact List.mem_flatMap.mpr ⟨m, List.mem_of_mem_eraseIdx hm, hh⟩

/-- A request stays behind the fence, and so do the merges that it prepares. -/
theorem respects_request (fill : Nat → Bytes) (merges : List Merge) (q : Request) :
    Respects (Hosted.rewritten F.foreign fill) (F.Confines (merges.flatMap Merge.holds))
      (fun answer => F.Confines ((q.pending merges (.ok answer)).flatMap Merge.holds))
      (q.run merges) := by
  open Request in
  cases q with
  | start => exact Fence.obeys_startWriting.andThen fun _ => Respects.pure fun _ h => h
  | store r => exact (Fence.obeys_store r).andThen fun _ => Respects.pure fun _ h => h
  | finish minKey maxKey =>
      exact (Fence.obeys_endWriting minKey maxKey).andThen fun _ => Respects.pure fun _ h => h
  | read location part buffer =>
      exact (Fence.obeys_readInto location part buffer).andThen fun _ => Respects.pure fun _ h => h
  | prepare files =>
      apply (Fence.respects_prepareMerge files).bind
      · exact fun _ _ ht => ht.right
      · intro m
        apply Respects.pure
        intro t ht
        cases m with
        | none => exact ht
        | some m => exact ht
  | complete k =>
      have hdone : Respects (Hosted.rewritten F.foreign fill) (F.Confines (merges.flatMap Merge.holds))
          (fun answer => F.Confines (((complete k).pending merges (.ok answer)).flatMap Merge.holds))
          (pure .done : ArchiveTask Answer) :=
        Respects.pure fun t ht => ht.mono fun h hh => List.mem_append_left _ (mem_holds_eraseIdx hh)
      simp only [Request.run]
      cases hm : merges[k]? with
      | none => exact hdone
      | some m =>
          have hheld : ∀ x ∈ m.inputs, x.hold ∈ merges.flatMap Merge.holds := fun x hx =>
            List.mem_flatMap.mpr ⟨m, List.mem_of_getElem? hm,
              List.mem_map_of_mem (List.mem_cons_of_mem _ hx)⟩
          apply Respects.knowing fun t ht => fun x hx =>
            (ht.owns (List.mem_append_left _ (hheld x hx))).2
          intro hreaches
          exact (Fence.obeys_finishMerge hreaches).andThen fun _ => hdone
  | close => exact Fence.obeys_close.andThen fun _ => Respects.pure fun _ h => h
  | destroy => exact Fence.obeys_destroy.andThen fun _ => Respects.pure fun _ h => h

structure Ground (P : Pair) (w : Shared) : Prop where
  present : ∀ n file slot, (file, Node.file slot) ∈ w.host.disk.entries n →
    slot < w.host.disk.contents.length
  plain : ∀ n file slot, (file, Node.file slot) ∈ w.host.disk.entries n → Plain file
  named : ∀ n file slot, (file, Node.file slot) ∈ w.host.disk.entries n → ∀ i, slot ∈ w.made i →
    (index? (P.name i) file).isSome
  made_lt : ∀ i, ∀ slot ∈ w.made i, slot < w.host.disk.contents.length
  apart : ∀ i, ∀ slot ∈ w.made i, slot ∉ w.made (!i)

theorem eq_or_eq_not (i j : Bool) : j = i ∨ j = !i := by
  cases i <;> cases j <;> simp

theorem Pair.names_ne (P : Pair) (i : Bool) : P.name i ≠ P.name (!i) := by
  cases i
  · exact P.different
  · exact P.different.symm

def Ground.fence (h : Ground P w) (i : Bool) : Fence where
  directory := P.directory
  name := P.name i
  other := P.name (!i)
  made := w.made i
  foreign := w.made (!i)
  start := w.host.disk
  plain := P.plain i
  different := P.names_ne i
  foreign_lt := h.made_lt (!i)

theorem Ground.guards (h : Ground P w) (i : Bool) : (h.fence i).Guards [] w.host.disk where
  entries n file slot hm := by
    refine ⟨h.present n file slot hm, h.plain n file slot hm, h.named n file slot hm (!i), ?_⟩
    rintro (hown | hnew)
    · exact h.named n file slot hm i hown
    · exact absurd (h.present n file slot hm) (Nat.not_lt.mpr hnew)
  names _ _ _ := Iff.rfl
  length := Nat.le_refl _
  holds := nofun

structure Settled (P : Pair) (w : Shared) : Prop extends Ground P w where
  tenants : ∀ i t, w.tenant? i = some t →
    (toGround.fence i).Confines (t.merges.flatMap Merge.holds) ⟨t.archive, w.host⟩

namespace Shared

variable {host : Host} {t : Option Tenant}

@[simp] theorem tenant?_worked : (w.worked i host t).tenant? i = t := if_pos rfl

@[simp] theorem tenant?_worked_other : (w.worked i host t).tenant? (!i) = w.tenant? (!i) :=
  if_neg (by simp)

@[simp] theorem made_worked : (w.worked i host t).made i =
    w.made i ++ List.range' w.host.disk.contents.length
      (host.disk.contents.length - w.host.disk.contents.length) := if_pos rfl

@[simp] theorem made_worked_other : (w.worked i host t).made (!i) = w.made (!i) :=
  if_neg (by simp)

end Shared

theorem Ground.worked (h : Ground P w) {host : Host} {t : Option Tenant}
    (hg : (h.fence i).Guards [] host.disk) : Ground P (w.worked i host t) := by
  have hlength : w.host.disk.contents.length ≤ host.disk.contents.length := hg.length
  have hnew {slot : Nat} (hm : slot ∈ (w.worked i host t).made i) :
      slot ∈ w.made i ∨ w.host.disk.contents.length ≤ slot ∧ slot < host.disk.contents.length := by
    rw [Shared.made_worked] at hm
    rcases List.mem_append.mp hm with hm | hm
    · exact .inl hm
    · have := List.mem_range'_1.mp hm
      exact .inr (by omega)
  have hapart {slot : Nat} (hm : slot ∈ (w.worked i host t).made i) : slot ∉ w.made (!i) := by
    rcases hnew hm with hm | ⟨hle, -⟩
    · exact h.apart i slot hm
    · exact fun ho => absurd (h.made_lt (!i) slot ho) (Nat.not_lt.mpr hle)
  constructor
  · exact fun n file slot hm => (hg.entries n file slot hm).1
  · exact fun n file slot hm => (hg.entries n file slot hm).2.plain
  · intro n file slot hm j hslot
    rcases eq_or_eq_not i j with rfl | rfl
    · exact (hg.entries n file slot hm).2.own ((hnew hslot).imp_right And.left)
    · rw [Shared.made_worked_other] at hslot
      exact (hg.entries n file slot hm).2.other hslot
  · intro j slot hslot
    rcases eq_or_eq_not i j with rfl | rfl
    · rcases hnew hslot with hm | ⟨-, hlt⟩
      · exact Nat.lt_of_lt_of_le (h.made_lt j slot hm) hlength
      · exact hlt
    · rw [Shared.made_worked_other] at hslot
      exact Nat.lt_of_lt_of_le (h.made_lt (!i) slot hslot) hlength
  · intro j slot hslot
    rcases eq_or_eq_not i j with rfl | rfl
    · rw [Shared.made_worked_other]
      exact hapart hslot
    · rw [Shared.made_worked_other] at hslot
      rw [Bool.not_not]
      exact fun ho => hapart ho hslot

theorem Ground.confines (h : Ground P w) {hs : List Hold} {a : Archive}
    (hd : a.directory = P.directory) (hn : a.name = P.name i)
    (hk : ∀ k ∈ hs ++ a.holds, (h.fence i).Owns k ∧ k.2 < w.host.disk.contents.length) :
    (h.fence i).Confines hs ⟨a, w.host⟩ :=
  ⟨hd, hn, (h.guards i).entries, fun _ _ _ => Iff.rfl, Nat.le_refl _, hk⟩

theorem Settled.worked (h : Settled P w) {host : Host} {t : Option Tenant}
    (hg : (h.fence i).Guards [] host.disk)
    (ht : ∀ u, t = some u →
      (h.fence i).Confines (u.merges.flatMap Merge.holds) ⟨u.archive, host⟩) :
    Settled P (w.worked i host t) := by
  refine ⟨h.toGround.worked hg, fun j u hu => ?_⟩
  rcases eq_or_eq_not i j with rfl | rfl
  · rw [Shared.tenant?_worked] at hu
    have hc := ht u hu
    refine Ground.confines _ hc.directory hc.name fun k hk => ?_
    obtain ⟨⟨hforeign, hreaches⟩, hlt⟩ := hc.guards.holds k hk
    refine ⟨⟨?_, hreaches⟩, hlt⟩
    change k.2 ∉ (w.worked j host t).made (!j)
    rw [Shared.made_worked_other]
    exact hforeign
  -- What the other archive holds was there before, so it is none of the new files.
  · rw [Shared.tenant?_worked_other] at hu
    have hc := h.tenants (!i) u hu
    refine Ground.confines _ hc.directory hc.name fun k hk => ?_
    obtain ⟨⟨hforeign, hreaches⟩, hlt⟩ := hc.guards.holds k hk
    refine ⟨⟨?_, hreaches⟩, Nat.lt_of_lt_of_le hlt hg.length⟩
    change k.2 ∉ w.made (!!i) at hforeign
    change k.2 ∉ (w.worked i host t).made (!!i)
    rw [Bool.not_not] at hforeign ⊢
    rw [Shared.made_worked]
    intro hm
    rcases List.mem_append.mp hm with hm | hm
    · exact hforeign hm
    · exact absurd hlt (Nat.not_lt.mpr (List.mem_range'_1.mp hm).1)

structure Stays (P : Pair) (w : Shared) (h : Ground P w) (i : Bool) (m : Move) : Prop where
  guards : (h.fence i).Guards [] (P.move i m w).2.host.disk
  settled : Settled P (P.move i m w).2
  blind : ∀ fill, P.move i m (w.rewritten (w.made (!i)) fill) =
    ((P.move i m w).1, (P.move i m w).2.rewritten (w.made (!i)) fill)
  other : (P.move i m w).2.tenant? (!i) = w.tenant? (!i) ∧
    (P.move i m w).2.made (!i) = w.made (!i)

theorem Stays.of_worked (h : Settled P w) {m : Move} {r : Except ArchiveError Answer} {host : Host}
    {t : Option Tenant} (hmove : P.move i m w = (r, w.worked i host t))
    (hg : (h.fence i).Guards [] host.disk)
    (ht : ∀ u, t = some u →
      (h.fence i).Confines (u.merges.flatMap Merge.holds) ⟨u.archive, host⟩)
    (hblind : ∀ fill, P.move i m (w.rewritten (w.made (!i)) fill) =
      (r, (w.rewritten (w.made (!i)) fill).worked i (host.rewritten (w.made (!i)) fill) t)) :
    Stays P w h.toGround i m := by
  constructor
  · rw [hmove]
    exact hg
  · rw [hmove]
    exact h.worked hg ht
  · intro fill
    rw [hmove, hblind, Shared.worked_rewritten]
  · rw [hmove]
    exact ⟨Shared.tenant?_worked_other, Shared.made_worked_other⟩

theorem Settled.opens (h : Settled P w) (i : Bool) : Stays P w h.toGround i .opens := by
  -- An opening that fails leaves the archive that was open, so the fence minds its files as well.
  let hs : List Hold :=
    ((w.tenant? i).map fun t => t.merges.flatMap Merge.holds ++ t.archive.holds).getD []
  have hguards : (h.fence i).Guards hs w.host.disk := by
    cases ht : w.tenant? i with
    | none => simpa [hs, ht] using h.guards i
    | some t => simpa [hs, ht] using (h.tenants i t ht).guards
  have hinit (fill : Nat → Bytes) : Respects (Host.rewritten (w.made (!i)) fill)
      (fun host => (h.fence i).Guards hs host.disk)
      (fun a host => (h.fence i).Confines [] ⟨a, host⟩) (init P.directory (P.name i)) :=
    Fence.respects_init
  rcases hrun : init P.directory (P.name i) w.host with ⟨r, host⟩
  have hr (fill : Nat → Bytes) := hinit fill w.host hguards
  simp only [hrun] at hr
  obtain ⟨hkeep, hok, -⟩ := hr w.host.disk.content
  have hblind (fill : Nat → Bytes) : init P.directory (P.name i)
      (w.rewritten (w.made (!i)) fill).host = (r, host.rewritten (w.made (!i)) fill) := (hr fill).2.2
  cases r with
  | ok a =>
      have hmove : P.move i .opens w = (.ok .done, w.worked i host (some ⟨a, []⟩)) := by
        simp only [Pair.move, hrun]
      apply Stays.of_worked h hmove
      · exact hkeep.mono nofun
      · intro u hu
        cases hu
        exact hok a rfl
      · intro fill
        simp only [Pair.move, hblind fill]
  | error e =>
      have hmove : P.move i .opens w = (.error e, w.worked i host (w.tenant? i)) := by
        simp only [Pair.move, hrun]
      apply Stays.of_worked h hmove
      · exact hkeep.mono nofun
      · intro u hu
        have hc := h.tenants i u hu
        refine ⟨hc.directory, hc.name, ?_⟩
        simpa [hs, hu] using hkeep
      · intro fill
        simp only [Pair.move, hblind fill]
        rfl

theorem Settled.asks (h : Settled P w) (i : Bool) (q : Request) :
    Stays P w h.toGround i (.asks q) := by
  cases ht : w.tenant? i with
  | none =>
      have hmove (w' : Shared) (ht' : w'.tenant? i = none) :
          P.move i (.asks q) w' = (.ok .done, w') := by
        simp only [Pair.move, ht']
      constructor
      · rw [hmove w ht]
        exact h.guards i
      · rw [hmove w ht]
        exact h
      · intro fill
        rw [hmove w ht]
        exact hmove _ ht
      · rw [hmove w ht]
        exact ⟨rfl, rfl⟩
  | some t =>
      have hr (fill : Nat → Bytes) :=
        respects_request fill t.merges q ⟨t.archive, w.host⟩ (h.tenants i t ht)
      rcases hrun : q.run t.merges ⟨t.archive, w.host⟩ with ⟨r, s⟩
      simp only [hrun] at hr
      obtain ⟨hkeep, hok, -⟩ := hr w.host.disk.content
      have hblind (fill : Nat → Bytes) :
          q.run t.merges ⟨t.archive, (w.rewritten (w.made (!i)) fill).host⟩ =
            (r, s.rewritten (w.made (!i)) fill) := (hr fill).2.2
      have hmove : P.move i (.asks q) w =
          (r, w.worked i s.host (some ⟨s.self, q.pending t.merges r⟩)) := by
        simp only [Pair.move, ht, hrun]
      apply Stays.of_worked h hmove
      · exact hkeep.guards.mono nofun
      · intro u hu
        cases hu
        cases r with
        | ok answer => exact hok answer rfl
        | error e =>
            refine hkeep.mono fun k hk => List.mem_append_left _ ?_
            cases q with
            | complete k => exact mem_holds_eraseIdx hk
            | _ => exact hk
      · intro fill
        have ht' : (w.rewritten (w.made (!i)) fill).tenant? i = some t := ht
        simp only [Pair.move, ht', hblind fill]
        rfl

theorem Settled.waits (h : Settled P w) (i : Bool) (clock : UInt64) :
    Stays P w h.toGround i (.waits clock) where
  guards := h.guards i
  settled := ⟨⟨h.present, h.plain, h.named, h.made_lt, h.apart⟩, fun j t ht =>
    have hc := h.tenants j t ht
    ⟨hc.directory, hc.name, hc.guards⟩⟩
  blind _ := rfl
  other := ⟨rfl, rfl⟩

theorem Settled.stays (h : Settled P w) (i : Bool) (m : Move) : Stays P w h.toGround i m := by
  cases m with
  | opens => exact h.opens i
  | asks q => exact h.asks i q
  | waits clock => exact h.waits i clock

theorem named_of_begun {host : Host} {slot : Nat} (hm : slot ∈ (P.begin host).made i) :
    ∃ n file index, (file, Node.file slot) ∈ host.disk.entries n ∧
      index? (P.name i) file = some index := by
  obtain ⟨f, hf, rfl⟩ := List.mem_map.mp hm
  obtain ⟨he, hi⟩ := ListedFile.name_of_mem hf
  obtain ⟨entries, hentries, he⟩ := List.mem_flatten.mp he
  obtain ⟨n, hn⟩ := List.mem_iff_getElem?.mp hentries
  refine ⟨n, f.name, f.index, ?_, hi⟩
  rw [Array.getElem?_toList] at hn
  rw [Disk.entries, hn]
  exact he

theorem Settled.begun {host : Host} (h : Orderly host.disk) : Settled P (P.begin host) := by
  refine ⟨⟨h.present, h.plain, ?_, ?_, ?_⟩, nofun⟩
  · intro n file slot hm i hslot
    obtain ⟨m, other, index, ho, hi⟩ := named_of_begun hslot
    rw [h.single n m file other slot hm ho, hi]
    rfl
  · intro i slot hslot
    obtain ⟨n, file, -, hm, -⟩ := named_of_begun hslot
    exact h.present n file slot hm
  · intro i slot hslot ho
    obtain ⟨n, file, index, hm, hi⟩ := named_of_begun hslot
    obtain ⟨m, other, j, hm', hj⟩ := named_of_begun ho
    -- A file of both would have one name that spells an index for each.
    rw [← h.single n m file other slot hm hm'] at hj
    exact P.names_ne i (SegmentName.name_of_index? hi hj)

theorem Pair.Run.settled (h : P.Run w) : Settled P w := by
  induction h with
  | begun h => exact .begun h
  | moved _ i m ih => exact (ih.stays i m).settled

theorem Settled.keeps (h : Settled P w) (m : Move) {slot : Nat} (hslot : slot ∈ w.made (!i)) :
    (P.move i m w).2.host.disk.content slot = w.host.disk.content slot := by
  have hs := h.stays i m
  -- Bytes that are replaced by themselves: what the move makes of this disk is rewritten too.
  have hsame : w.rewritten (w.made (!i)) w.host.disk.content = w := by
    rw [Shared.rewritten, Host.rewritten, Disk.rewrite_content]
  have hmove := hs.blind w.host.disk.content
  rw [hsame] at hmove
  have hlt := hs.settled.made_lt (!i) slot (hs.other.2 ▸ hslot)
  have hdisk : (P.move i m w).2.host.disk =
      (P.move i m w).2.host.disk.rewrite (w.made (!i)) w.host.disk.content :=
    congrArg (fun r => r.2.host.disk) hmove
  rw [hdisk, Disk.content_rewrite, if_pos ⟨hslot, hlt⟩]

/-- No file of the other is among those that an opening counts. -/
theorem Ground.listed (h : Ground P w) {files : List (String × Node)} {d : Disk}
    (hlist : (do Disk.makeDirectories P.directory; Disk.list P.directory : DiskTask _)
      w.host.disk = (.ok files, d)) {f : ListedFile} (hf : f ∈ ListedFile.all (P.name i) files) :
    f.slot ∉ w.made (!i) := by
  have hr : Respects (Disk.rewrite (h.fence i).foreign w.host.disk.content)
      ((h.fence i).Guards [])
      (fun files => (h.fence i).Guards ((h.fence i).listedHolds files ++ []))
      (do Disk.makeDirectories P.directory; Disk.list P.directory : DiskTask _) :=
    (Fence.respects_makeFirst (Path.ancestors P.directory)).andThen fun _ =>
      Fence.respects_list P.directory
  have hg := (hr w.host.disk (h.guards i)).2.1 files (by rw [hlist])
  exact (hg.holds (Path.join P.directory f.name, f.slot)
    (List.mem_append_left _ (List.mem_map.mpr ⟨f, hf, rfl⟩))).1.1

/-- In every run each of the two leaves the files of the other alone and does not count them. -/
theorem Pair.Run.files_apart (h : P.Run w) (i : Bool) : P.Apart w i := by
  have hw := h.settled
  have howns {t : Tenant} (ht : w.tenant? i = some t) {x : Segment} (hx : x ∈ t.archive.completed) :
      (hw.fence i).Owns x.hold :=
    (hw.tenants i t ht).owns (List.mem_append_right _ (hold_of_segment (mem_completed.mp hx).1))
  constructor
  · exact hw.apart i
  · intro t ht k hk
    exact ((hw.tenants i t ht).owns (List.mem_append.mpr (List.mem_append.mp hk).symm)).1
  · intro t ht x hx
    exact ⟨(howns ht hx).1, fun slot hf => (hw.guards i).not_foreign_of_find (howns ht hx).2 hf⟩
  · intro t _ limit x hx
    have hfront := takeWithin_prefix limit.toNat t.archive.completed 0
    exact hfront.subset hx
  · intro t ht fill
    exact visitSegments_congr fun x hx => (hw.guards i).records_rewritten fill (howns ht hx).2
  · intro a host hgo
    obtain ⟨files, d, hlist, hnext⟩ := init_next hgo
    exact ⟨files, d, hlist, fun f hf => hw.listed hlist hf, hnext⟩
  · exact fun m => (hw.stays i m).blind
  · intro m slot hslot
    exact ⟨hw.keeps m hslot, fun p => (hw.stays i m).guards.names p slot hslot⟩
  · exact fun m => (hw.stays i m).other

def Pair.play (P : Pair) (w : Shared) (moves : List (Bool × Move)) : Shared :=
  moves.foldl (fun w m => (P.move m.1 m.2 w).2) w

theorem Pair.Run.play (h : P.Run w) (moves : List (Bool × Move)) : P.Run (P.play w moves) := by
  induction moves generalizing w with
  | nil => exact h
  | cons m moves ih => exact ih (h.moved m.1 m.2)

def tangled : Pair where
  directory := ["d"]
  name i := if i then "x_00000000" else "x"
  plain := by decide
  different := by decide

theorem orderly_empty : Orderly {} := by
  have hnone (n : Nat) : ({} : Disk).entries n = [] := by
    cases n <;> rfl
  constructor <;> simp [hnone]

theorem tangled_files_apart :
    ∃ w, tangled.Run w ∧ w.made false = [0] ∧ w.made true = [1] ∧ tangled.Apart w false ∧
      tangled.Apart w true := by
  let w := tangled.play (tangled.begin { clock := 0 })
    [(false, .opens), (false, .asks .start), (false, .asks (.store ⟨7, [1]⟩)),
      (false, .asks (.finish 0 10)), (true, .opens), (true, .asks .start)]
  have hrun : tangled.Run w := (Pair.Run.begun orderly_empty).play _
  exact ⟨w, hrun, by decide +kernel, by decide +kernel, hrun.files_apart false,
    hrun.files_apart true⟩

end Sharing

end MeteredStorage
