import MeteredStorage.Proofs.Disk.Change

namespace MeteredStorage.Disk

open MeteredStorage.Task (Respects)

def rewrite (slots : List Nat) (fill : Nat → Bytes) (d : Disk) : Disk :=
  { d with contents := d.contents.mapIdx fun slot old => if slot ∈ slots then fill slot else old }

variable {P : Disk → Prop} {slots : List Nat} {fill : Nat → Bytes} {path : Path} {slot : Nat}

theorem length_rewrite (d : Disk) :
    (d.rewrite slots fill).contents.length = d.contents.length := List.length_mapIdx

theorem content_rewrite (d : Disk) (slot : Nat) :
    (d.rewrite slots fill).content slot =
      if slot ∈ slots ∧ slot < d.contents.length then fill slot else d.content slot := by
  by_cases hlt : slot < d.contents.length
  · simp [content, rewrite, hlt]
  · simp [content, rewrite, hlt]

theorem content_rewrite_of_not_mem (h : slot ∉ slots) (d : Disk) :
    (d.rewrite slots fill).content slot = d.content slot := by
  rw [content_rewrite, if_neg fun he => h he.1]

theorem rewrite_content (slots : List Nat) (d : Disk) : d.rewrite slots d.content = d := by
  have hc : (d.rewrite slots d.content).contents = d.contents := by
    apply List.ext_getElem
    · exact length_rewrite d
    · intro slot _ h
      simp [rewrite, content, h]
  cases d
  simp_all [rewrite]

theorem setContent_rewrite (h : slot ∉ slots) (bytes : Bytes) (d : Disk) :
    (d.rewrite slots fill).setContent slot bytes = (d.setContent slot bytes).rewrite slots fill := by
  simp [rewrite, setContent, List.mapIdx_set, h]

theorem directories_rewrite (d : Disk) : (d.rewrite slots fill).directories = d.directories := rfl

theorem target_rewrite (d : Disk) (path : Path) :
    (d.rewrite slots fill).target path = d.target path :=
  target_congr (directories_rewrite d) path

theorem find_rewrite (d : Disk) (path : Path) :
    (d.rewrite slots fill).find path = d.find path :=
  find_congr (directories_rewrite d) path

theorem respects_aim (path : Path) :
    Respects (rewrite slots fill) P (fun _ => P) (aim path) := by
  apply Respects.get
  · intro d _
    rw [target_rewrite]
  · intro d _
    exact Respects.ofExcept _ _

theorem respects_look (path : Path) :
    Respects (rewrite slots fill) P (fun _ => P) (look path) := by
  apply Respects.get
  · intro d _
    rw [find_rewrite]
  · intro d _
    exact Respects.ofExcept _ _

theorem respects_lookIn (trail : Trail) (name : String) :
    Respects (rewrite slots fill) P (fun _ => P) (lookIn trail name) := by
  apply Respects.get
  · intro d _
    rfl
  · intro d _
    exact Respects.ofExcept _ _

def Blind {α : Type} (slots : List Nat) (fill : Nat → Bytes) (task : DiskTask α) : Prop :=
  Respects (rewrite slots fill) (fun d => ∀ slot ∈ slots, slot < d.contents.length)
    (fun _ d => ∀ slot ∈ slots, slot < d.contents.length) task

theorem blind_unlinked (p : Place) : Blind slots fill (perform (.unlink p)) :=
  Respects.modify (fun _ h => h) fun _ _ => rfl

theorem blind_directoryMade (p : Place) : Blind slots fill (perform (.makeDirectory p)) :=
  Respects.modify (fun _ h => h) fun _ _ => rfl

theorem blind_fileCreated (p : Place) : Blind slots fill (perform (.createFile p)) := by
  apply Respects.modify
  · intro d h slot hslot
    simp only [apply, List.length_append]
    exact Nat.lt_add_right _ (h slot hslot)
  · intro d h
    have hfresh : d.contents.length ∉ slots := fun hm => Nat.lt_irrefl _ (h _ hm)
    simp [apply, rewrite, insertNode, List.mapIdx_append, hfresh]

theorem blind_openHandle : Blind slots fill openHandle :=
  Respects.modifyGet (fun _ h => h) fun _ _ => rfl

theorem blind_createFile (path : Path) : Blind slots fill (createFile path) := by
  refine (respects_aim path).andThen fun target => ?_
  cases target with
  | directory => exact Respects.throw _
  | name trail name closed =>
      dsimp only
      split
      · exact Respects.throw _
      · refine (respects_lookIn trail name).andThen fun node => ?_
        cases node with
        | some _ => exact Respects.throw _
        | none =>
            apply Respects.get
            · intro d _
              simp only [length_rewrite]
            · intro d _
              refine (blind_fileCreated _).andThen fun _ => ?_
              exact blind_openHandle.andThen fun _ => Respects.pure fun _ h => h

theorem blind_unlink (path : Path) : Blind slots fill (unlink path) := by
  refine (respects_aim path).andThen fun target => ?_
  cases target with
  | directory => exact Respects.throw _
  | name trail name closed =>
      refine (respects_lookIn trail name).andThen fun node => ?_
      rcases node with _ | _ | _
      · exact Respects.throw _
      · exact Respects.throw _
      · dsimp only
        split
        · exact Respects.throw _
        · exact blind_unlinked _

theorem blind_makeDirectory (path : Path) : Blind slots fill (makeDirectory path) := by
  refine (respects_aim path).andThen fun target => ?_
  cases target with
  | directory => exact Respects.throw _
  | name trail name _ =>
      refine (respects_lookIn trail name).andThen fun node => ?_
      cases node with
      | some _ => exact Respects.throw _
      | none => exact blind_directoryMade _

theorem blind_removeDirectory (path : Path) : Blind slots fill (removeDirectory path) := by
  refine (respects_aim path).andThen fun target => ?_
  cases target with
  | directory => exact Respects.throw _
  | name trail name _ =>
      refine (respects_lookIn trail name).andThen fun node => ?_
      rcases node with _ | number | _
      · exact Respects.throw _
      · apply Respects.get
        · intro d _
          rfl
        · intro d _
          split
          · exact blind_unlinked _
          · exact Respects.throw _
      · exact Respects.throw _

end MeteredStorage.Disk
