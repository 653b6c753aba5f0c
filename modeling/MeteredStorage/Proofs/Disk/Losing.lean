import MeteredStorage.Proofs.Disk.Change

namespace MeteredStorage

namespace Disk

variable {d d' d'' e : Disk} {P Q : Disk → Prop}

structure Same (d e : Disk) : Prop where
  directories : e.directories = d.directories
  contents : e.contents = d.contents

theorem Same.refl (d : Disk) : Same d d := ⟨rfl, rfl⟩

theorem Same.symm (h : Same d e) : Same e d := ⟨h.directories.symm, h.contents.symm⟩

theorem Same.trans (h : Same d d') (h' : Same d' e) : Same d e :=
  ⟨h'.directories.trans h.directories, h'.contents.trans h.contents⟩

theorem Same.entries (h : Same d e) (n : Nat) : e.entries n = d.entries n := by
  rw [Disk.entries, Disk.entries, h.directories]

theorem Same.node? (h : Same d e) (p : Place) : e.node? p = d.node? p := by
  rw [Disk.node?, Disk.node?, h.entries]

theorem Same.content (h : Same d e) (slot : Nat) : e.content slot = d.content slot := by
  rw [Disk.content, Disk.content, h.contents]

theorem Same.keeps (h : Same d e) : Keeps d e := by
  intro p n hp
  rw [h.node?, hp]

theorem Same.changed (h : Same d e) (c : Change) : Same (d.changed c) (e.changed c) := by
  obtain ⟨hd, hc⟩ := h
  cases c <;> constructor <;> simp [Disk.changed, apply, insertNode, eraseNode, setContent,
    Disk.content, hd, hc]

def after (d : Disk) (cs : List Change) : Disk := cs.foldr (fun c d => d.changed c) d

theorem after_append (d : Disk) (cs ds : List Change) : d.after (ds ++ cs) = (d.after cs).after ds :=
  List.foldr_append

theorem Same.after (h : Same d e) (cs : List Change) : Same (d.after cs) (e.after cs) := by
  induction cs with
  | nil => exact h
  | cons c cs ih => exact ih.changed c

def Becomes (d d' : Disk) : Prop := ∃ cs, d'.history = cs ++ d.history ∧ Same (d.after cs) d'

theorem Becomes.refl (d : Disk) : Becomes d d := ⟨[], rfl, .refl d⟩

theorem Becomes.trans (h : Becomes d d') (h' : Becomes d' d'') : Becomes d d'' := by
  obtain ⟨cs, hcs, hs⟩ := h
  obtain ⟨ds, hds, hs'⟩ := h'
  refine ⟨ds ++ cs, by rw [hds, hcs, List.append_assoc], ?_⟩
  rw [after_append]
  exact (hs.after ds).trans hs'

/-- A loss of power while `d` becomes `d'` can leave `e`. -/
def Leaves (d d' e : Disk) : Prop :=
  ∃ cs ds, d'.history = ds ++ (cs ++ d.history) ∧ Same (d.after cs) e

theorem Becomes.leaves (h : Becomes d d') : Leaves d d' d' := by
  obtain ⟨cs, hcs, hs⟩ := h
  exact ⟨cs, [], hcs, hs⟩

/-- What is left on the way to `d''` is left before or after `d'` has come. -/
theorem Leaves.split (h : Becomes d d') (h' : Becomes d' d'') (hl : Leaves d d'' e) :
    Leaves d d' e ∨ Leaves d' d'' e := by
  obtain ⟨as, has, hsame⟩ := h
  obtain ⟨bs, hbs, -⟩ := h'
  obtain ⟨cs, ds, hhistory, hs⟩ := hl
  have happ : bs ++ as = ds ++ cs := by
    refine (List.append_left_inj d.history).mp ?_
    rw [List.append_assoc, List.append_assoc, ← has, ← hbs, hhistory]
  rcases List.append_eq_append_iff.mp happ with ⟨xs, hds, has'⟩ | ⟨xs, hbs', hcs⟩
  · exact .inl ⟨cs, xs, by rw [has, has', List.append_assoc], hs⟩
  · refine .inr ⟨xs, ds, by rw [hbs, hbs', List.append_assoc], ?_⟩
    rw [hcs, after_append] at hs
    exact (hsame.symm.after xs).trans hs

/-- Whatever a loss of power leaves on the way from `d` to `d'` has `P`. -/
structure Within (P : Disk → Prop) (d d' : Disk) : Prop where
  becomes : Becomes d d'
  leaves : ∀ e, Leaves d d' e → P e

theorem Within.mono (h : Within P d d') (hp : ∀ e, P e → Q e) : Within Q d d' :=
  ⟨h.becomes, fun e he => hp e (h.leaves e he)⟩

theorem Within.trans (h : Within P d d') (h' : Within P d' d'') : Within P d d'' :=
  ⟨h.becomes.trans h'.becomes, fun e he =>
    (he.split h.becomes h'.becomes).elim (h.leaves e) (h'.leaves e)⟩

theorem Within.refl (h : ∀ e, Same d e → P e) : Within P d d := by
  refine ⟨.refl d, fun e he => ?_⟩
  obtain ⟨cs, ds, hhistory, hs⟩ := he
  have hnil : ds ++ cs = [] := by
    refine (List.append_left_inj d.history).mp ?_
    rw [List.append_assoc, ← hhistory, List.nil_append]
  rw [(List.append_eq_nil_iff.mp hnil).2] at hs
  exact h e hs

theorem Within.last (h : Within P d d') (hs : Same d' e) : P e := by
  obtain ⟨cs, hhistory, hsame⟩ := h.becomes
  exact h.leaves e ⟨cs, [], hhistory, hsame.trans hs⟩

def Brief (d d' : Disk) : Prop :=
  ∃ cs, cs.length ≤ 1 ∧ d'.history = cs ++ d.history ∧ Same (d.after cs) d'

theorem Brief.refl (d : Disk) : Brief d d := ⟨[], Nat.zero_le _, rfl, .refl d⟩

theorem Brief.of_eq (h : d' = d) : Brief d d' := h ▸ .refl d

theorem Brief.changed (d : Disk) (c : Change) : Brief d (d.changed c) :=
  ⟨[c], Nat.le_refl _, rfl, .refl _⟩

theorem Brief.within (h : Brief d d') : Within (fun e => Same d e ∨ Same d' e) d d' := by
  obtain ⟨as, hlength, has, hsame⟩ := h
  refine ⟨⟨as, has, hsame⟩, fun e he => ?_⟩
  obtain ⟨cs, ds, hhistory, hs⟩ := he
  have happ : as = ds ++ cs := by
    refine (List.append_left_inj d.history).mp ?_
    rw [← has, hhistory, List.append_assoc]
  cases cs with
  | nil => exact .inl hs
  | cons c cs =>
      rw [happ, List.length_append, List.length_cons] at hlength
      have hnil : ds = [] := List.length_eq_zero_iff.mp (by omega)
      rw [hnil, List.nil_append] at happ
      rw [happ] at hsame
      exact .inr (hsame.symm.trans hs)

end Disk

namespace Task

variable {σ ε α β : Type} {disk : σ → Disk} {task : Task σ ε α} {f : α → Task σ ε β}

def Quiet (disk : σ → Disk) (task : Task σ ε α) : Prop := ∀ s, disk (task s).2 = disk s

def Brief (disk : σ → Disk) (task : Task σ ε α) : Prop := ∀ s, (disk s).Brief (disk (task s).2)

theorem Quiet.brief (h : Quiet disk task) : Brief disk task := by
  intro s
  rw [h s]
  exact .refl _

theorem Quiet.bind (h : Quiet disk task) (hf : ∀ a, Quiet disk (f a)) : Quiet disk (task >>= f) := by
  intro s
  have hs := h s
  rw [bind_run]
  split
  · rename_i a t heq
    rw [heq] at hs
    rw [hf a t, hs]
  · rename_i heq
    rw [heq] at hs
    exact hs

theorem Quiet.bind_brief (h : Quiet disk task) (hf : ∀ a, Brief disk (f a)) :
    Brief disk (task >>= f) := by
  intro s
  have hs := h s
  rw [bind_run]
  split
  · rename_i a t heq
    rw [heq] at hs
    rw [← hs]
    exact hf a t
  · rename_i heq
    rw [heq] at hs
    rw [← hs]
    exact .refl _

theorem Brief.bind (h : Brief disk task) (hf : ∀ a, Quiet disk (f a)) : Brief disk (task >>= f) := by
  intro s
  have hs := h s
  rw [bind_run]
  split
  · rename_i a t heq
    rw [heq] at hs
    rw [hf a t]
    exact hs
  · rename_i heq
    rw [heq] at hs
    exact hs

theorem quiet_pure (a : α) : Quiet disk (pure a : Task σ ε α) := fun _ => rfl

theorem quiet_throw (e : ε) : Quiet disk (throw e : Task σ ε α) := fun _ => rfl

theorem quiet_get : Quiet disk (get : Task σ ε σ) := fun _ => rfl

theorem quiet_ofExcept {ε' : Type} (wrap : ε' → ε) (r : Except ε' α) :
    Quiet disk (ofExcept wrap r : Task σ ε α) := by
  cases r <;> exact fun _ => rfl

end Task

namespace Disk

open MeteredStorage.Task

theorem quiet_aim (path : Path) : Quiet id (aim path) :=
  quiet_get.bind fun _ => quiet_ofExcept _ _

theorem quiet_look (path : Path) : Quiet id (look path) :=
  quiet_get.bind fun _ => quiet_ofExcept _ _

theorem quiet_lookIn (trail : Trail) (name : String) : Quiet id (lookIn trail name) :=
  quiet_get.bind fun _ => quiet_ofExcept _ _

theorem quiet_sync (path : Path) : Quiet id (sync path) := by
  refine (quiet_look path).bind fun node => ?_
  cases node with
  | none => exact quiet_throw _
  | some _ => exact quiet_pure _

theorem brief_perform (c : Change) : Task.Brief id (perform c) := fun d => .changed d c

theorem brief_createFile (path : Path) : Task.Brief id (createFile path) := by
  intro d
  rcases createFile_cases path d with ⟨e, h⟩ | ⟨trail, name, -, -, h⟩
  · rw [h]
    exact .refl d
  · rw [h]
    exact ⟨[.createFile (Trail.place trail name)], Nat.le_refl _, rfl, rfl, rfl⟩

theorem brief_unlink (path : Path) : Task.Brief id (unlink path) := by
  refine (quiet_aim path).bind_brief fun target => ?_
  cases target with
  | directory => exact (quiet_throw _).brief
  | name trail name closed =>
      refine (quiet_lookIn trail name).bind_brief fun node => ?_
      rcases node with _ | _ | _
      · exact (quiet_throw _).brief
      · exact (quiet_throw _).brief
      · dsimp only
        split
        · exact (quiet_throw _).brief
        · exact brief_perform _

theorem brief_unlinkIfPresent (path : Path) : Task.Brief id (unlinkIfPresent path) := by
  have hattempt : Task.Brief id (Task.attempt (unlink path) : DiskTask (Except DiskError Unit)) :=
    brief_unlink path
  refine hattempt.bind fun r => ?_
  split
  · exact quiet_pure _
  · exact quiet_pure _
  · exact quiet_throw _

end Disk

end MeteredStorage
