import MeteredStorage.Proofs.Disk.Frame

namespace MeteredStorage.Disk

variable {d d' : Disk} {path : Path} {slot : Nat} {trail : Trail} {name : String}

def changed (d : Disk) (c : Change) : Disk := { d.apply c with history := c :: d.history }

@[simp] theorem perform_run (c : Change) (d : Disk) : perform c d = (.ok (), d.changed c) := rfl

theorem changed_write (d : Disk) (slot offset : Nat) (bytes : Bytes) :
    Frame (· ≠ slot) d (d.changed (.write slot offset bytes)) where
  directories _ _ := Iff.rfl
  files _ _ _ h := h
  content other hp _ := by
    have h := content_setContent d slot other (Bytes.overlay offset bytes (d.content slot))
    rwa [if_neg (fun h => hp h.1)] at h
  length := by simp [changed, apply, setContent]
  size := rfl
  opened := Nat.le_refl _

theorem content_write (h : slot < d.contents.length) (offset : Nat) (bytes : Bytes) :
    (d.changed (.write slot offset bytes)).content slot =
      Bytes.overlay offset bytes (d.content slot) := by
  have hc := content_setContent d slot slot (Bytes.overlay offset bytes (d.content slot))
  rwa [if_pos ⟨rfl, h⟩] at hc

theorem changed_finish (d : Disk) (slot length : Nat) (tail : Bytes) :
    Frame (· ≠ slot) d (d.changed (.finish slot length tail)) where
  directories _ _ := Iff.rfl
  files _ _ _ h := h
  content other hp _ := by
    have h := content_setContent d slot other (Bytes.resize length (d.content slot) ++ tail)
    rwa [if_neg (fun h => hp h.1)] at h
  length := by simp [changed, apply, setContent]
  size := rfl
  opened := Nat.le_refl _

theorem content_finish (h : slot < d.contents.length) (length : Nat) (tail : Bytes) :
    (d.changed (.finish slot length tail)).content slot =
      Bytes.resize length (d.content slot) ++ tail := by
  have hc := content_setContent d slot slot (Bytes.resize length (d.content slot) ++ tail)
  rwa [if_pos ⟨rfl, h⟩] at hc

def created (d : Disk) (p : Place) : Disk :=
  { d.changed (.createFile p) with opened := d.opened + 1 }

theorem node?_created {p : Place} (hp : p.directory < d.directories.size) (hn : d.node? p = none)
    (q : Place) :
    (d.created p).node? q = if q = p then some (.file d.contents.length) else d.node? q :=
  node?_insertNode hp hn _ q

theorem entries_created (d : Disk) (p : Place) (n : Nat) :
    (d.created p).entries n =
      if n = p.directory ∧ n < d.directories.size then
        d.entries n ++ [(p.name, .file d.contents.length)]
      else d.entries n := entries_insertNode d p _ n

theorem content_created (d : Disk) (p : Place) : (d.created p).content d.contents.length = [] := by
  simp [created, changed, apply, content]

theorem length_created (d : Disk) (p : Place) :
    (d.created p).contents.length = d.contents.length + 1 := by
  simp [created, changed, apply]

theorem frame_created {p : Place} (hp : p.directory < d.directories.size) (hn : d.node? p = none) :
    Frame (fun _ => True) d (d.created p) where
  directories q n := by
    rw [node?_created hp hn]
    by_cases hq : q = p
    · rw [if_pos hq, hq, hn]
      simp
    · rw [if_neg hq]
  files q slot _ h := by
    rw [node?_created hp hn, if_neg]
    · exact h
    · rintro rfl
      rw [hn] at h
      cases h
  content slot _ hs := by
    simp [created, changed, apply, content, List.getElem?_append_left hs, insertNode]
  length := by rw [length_created]; omega
  size := by simp [created, changed, apply, insertNode]
  opened := Nat.le_succ _

theorem createFile_run {path : Path} {d : Disk} {trail : Trail} {name : String}
    (ht : d.target path = .ok (.name trail name false)) (hm : d.meaning trail name = .ok none) :
    createFile path d =
      (.ok (d.contents.length, d.opened), d.created (Trail.place trail name)) := by
  simp [createFile, aim, lookIn, ht, hm, openHandle, created]
  rfl

/-- Creating a file fails and changes nothing, or makes an empty file where there was none. -/
theorem createFile_cases (path : Path) (d : Disk) :
    (∃ e, createFile path d = (.error e, d)) ∨
      ∃ trail name, d.target path = .ok (.name trail name false) ∧
        d.meaning trail name = .ok none ∧
        createFile path d =
          (.ok (d.contents.length, d.opened), d.created (Trail.place trail name)) := by
  cases ht : d.target path with
  | error e => exact .inl ⟨e, by simp [createFile, aim, ht]⟩
  | ok t =>
      cases t with
      | directory trail piece => exact .inl ⟨_, by simp [createFile, aim, ht]; rfl⟩
      | name trail name closed =>
          cases closed with
          | true => exact .inl ⟨_, by simp [createFile, aim, ht]; rfl⟩
          | false =>
              cases hm : d.meaning trail name with
              | error e => exact .inl ⟨e, by simp [createFile, aim, lookIn, ht, hm]⟩
              | ok node =>
                  cases node with
                  | some node => exact .inl ⟨_, by simp [createFile, aim, lookIn, ht, hm]; rfl⟩
                  | none => exact .inr ⟨trail, name, rfl, hm, createFile_run ht hm⟩

theorem node?_unlinked (d : Disk) (p q : Place) :
    (d.changed (.unlink p)).node? q = if q = p then none else d.node? q := node?_eraseNode d p q

theorem entries_unlinked (d : Disk) (p : Place) (n : Nat) :
    (d.changed (.unlink p)).entries n =
      if n = p.directory then (d.entries n).filter (·.1 != p.name) else d.entries n :=
  entries_eraseNode d p n

theorem frame_unlinked {p : Place} (hn : d.node? p = some (.file slot)) :
    Frame (· ≠ slot) d (d.changed (.unlink p)) where
  directories q n := by
    rw [node?_unlinked]
    by_cases hq : q = p
    · rw [if_pos hq, hq, hn]
      simp
    · rw [if_neg hq]
  files q other hp h := by
    rw [node?_unlinked, if_neg]
    · exact h
    · rintro rfl
      rw [hn] at h
      cases h
      exact hp rfl
  content _ _ _ := rfl
  length := Nat.le_refl _
  size := by simp [changed, apply, eraseNode]
  opened := Nat.le_refl _

theorem unlink_run (ht : d.target path = .ok (.name trail name false))
    (hm : d.meaning trail name = .ok (some (.file slot))) :
    unlink path d = (.ok (), d.changed (.unlink (Trail.place trail name))) := by
  unfold unlink
  simp [aim, lookIn, ht, hm]

theorem unlink_cases (path : Path) (d : Disk) :
    (∃ e, unlink path d = (.error e, d)) ∨
      ∃ trail name slot, d.target path = .ok (.name trail name false) ∧
        d.meaning trail name = .ok (some (.file slot)) ∧
        unlink path d = (.ok (), d.changed (.unlink (Trail.place trail name))) := by
  cases ht : d.target path with
  | error e => exact .inl ⟨e, by simp [unlink, aim, ht]⟩
  | ok t =>
      cases t with
      | directory trail piece => exact .inl ⟨_, by simp [unlink, aim, ht]; rfl⟩
      | name trail name closed =>
          cases hm : d.meaning trail name with
          | error e => exact .inl ⟨e, by simp [unlink, aim, lookIn, ht, hm]⟩
          | ok node =>
              rcases node with _ | _ | slot
              · exact .inl ⟨_, by simp [unlink, aim, lookIn, ht, hm]; rfl⟩
              · exact .inl ⟨_, by simp [unlink, aim, lookIn, ht, hm]; rfl⟩
              · cases closed with
                | true => exact .inl ⟨_, by simp [unlink, aim, lookIn, ht, hm]; rfl⟩
                | false => exact .inr ⟨trail, name, slot, rfl, hm, unlink_run ht hm⟩

theorem unlinkIfPresent_run (ht : d.target path = .ok (.name trail name false))
    (hm : d.meaning trail name = .ok (some (.file slot))) :
    unlinkIfPresent path d = (.ok (), d.changed (.unlink (Trail.place trail name))) := by
  unfold unlinkIfPresent
  simp [unlink_run ht hm]

theorem unlinkIfPresent_contents (path : Path) (d : Disk) :
    (unlinkIfPresent path d).2.contents = d.contents ∧
      (unlinkIfPresent path d).2.opened = d.opened := by
  unfold unlinkIfPresent
  rcases unlink_cases path d with ⟨e, hrun⟩ | ⟨trail, name, slot, -, -, hrun⟩
  · rw [Task.bind_run, Task.attempt_run, hrun]
    cases e <;> exact ⟨rfl, rfl⟩
  · rw [Task.bind_run, Task.attempt_run, hrun]
    exact ⟨rfl, rfl⟩

theorem sync_run {node : Node} (hf : d.find path = .ok (some node)) :
    sync path d = (.ok (), d) := by
  unfold sync
  simp [look, hf]

theorem list_run {number : Nat} (hf : d.find path = .ok (some (.directory number))) :
    list path d = (.ok (d.entries number), d) := by
  unfold list
  simp [look, hf]

theorem entries_directoryMade (d : Disk) (p : Place) (n : Nat) :
    (d.changed (.makeDirectory p)).entries n =
      (d.insertNode p (.directory d.directories.size)).entries n := by
  simp only [changed, apply, entries, insertNode, Array.getElem?_push, Array.size_modify]
  split
  · rename_i h
    rw [h, Array.getElem?_eq_none (by simp)]
    rfl
  · rfl

theorem makeDirectory_cases (path : Path) (d : Disk) :
    (∃ e, makeDirectory path d = (.error e, d)) ∨
      ∃ p, d.node? p = none ∧ makeDirectory path d = (.ok (), d.changed (.makeDirectory p)) := by
  cases ht : d.target path with
  | error e => exact .inl ⟨e, by simp [makeDirectory, aim, ht]⟩
  | ok t =>
      cases t with
      | directory trail piece => exact .inl ⟨_, by simp [makeDirectory, aim, ht]; rfl⟩
      | name trail name closed =>
          cases hm : d.meaning trail name with
          | error e => exact .inl ⟨e, by simp [makeDirectory, aim, lookIn, ht, hm]⟩
          | ok node =>
              cases node with
              | some node => exact .inl ⟨_, by simp [makeDirectory, aim, lookIn, ht, hm]; rfl⟩
              | none =>
                  refine .inr ⟨Trail.place trail name, (meaning_eq_ok hm).2, ?_⟩
                  simp [makeDirectory, aim, lookIn, ht, hm]

theorem removeDirectory_cases (path : Path) (d : Disk) :
    (∃ e, removeDirectory path d = (.error e, d)) ∨
      ∃ p number, d.node? p = some (.directory number) ∧
        removeDirectory path d = (.ok (), d.changed (.unlink p)) := by
  cases ht : d.target path with
  | error e => exact .inl ⟨e, by simp [removeDirectory, aim, ht]⟩
  | ok t =>
      cases t with
      | directory trail piece => exact .inl ⟨_, by simp [removeDirectory, aim, ht]; rfl⟩
      | name trail name closed =>
          cases hm : d.meaning trail name with
          | error e => exact .inl ⟨e, by simp [removeDirectory, aim, lookIn, ht, hm]⟩
          | ok node =>
              rcases node with _ | number | slot
              · exact .inl ⟨_, by simp [removeDirectory, aim, lookIn, ht, hm]; rfl⟩
              · by_cases he : (d.entries number).isEmpty
                · refine .inr ⟨Trail.place trail name, number, (meaning_eq_ok hm).2, ?_⟩
                  simp [removeDirectory, aim, lookIn, ht, hm, List.isEmpty_iff.mp he]
                · refine .inl ⟨.directoryNotEmpty, ?_⟩
                  rw [List.isEmpty_iff] at he
                  simp [removeDirectory, aim, lookIn, ht, hm, he]
              · exact .inl ⟨_, by simp [removeDirectory, aim, lookIn, ht, hm]; rfl⟩

theorem makeDirectories_run {number : Nat} (hf : d.find path = .ok (some (.directory number))) :
    makeDirectories path d = (.ok (), d) := by
  have hmake : makeDirectory path d = (.error .alreadyExists, d) := by
    unfold makeDirectory
    cases ht : d.target path with
    | error e => simp [find, ht, bind, Except.bind] at hf
    | ok t =>
        cases t with
        | directory trail piece => simp [aim, ht]
        | name trail name closed =>
            rw [find_name ht] at hf
            cases hm : d.meaning trail name with
            | error e => simp [hm] at hf
            | ok node =>
                cases node with
                | none => simp [hm] at hf
                | some node => simp [aim, lookIn, ht, hm]
  have hensure : ensureDirectory path d = (.ok (), d) := by
    unfold ensureDirectory
    simp [hmake, isDirectory, hf]
  unfold makeDirectories Path.ancestors makeFirst
  simp [hensure]

end MeteredStorage.Disk
