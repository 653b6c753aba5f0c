import MeteredStorage.Host

namespace MeteredStorage

namespace Task

variable {σ τ ε ε' α β : Type}

@[simp] theorem pure_run (a : α) (s : σ) : (pure a : Task σ ε α) s = (.ok a, s) := rfl

@[simp] theorem throw_run (e : ε) (s : σ) : (throw e : Task σ ε α) s = (.error e, s) := rfl

@[simp] theorem get_run (s : σ) : (get : Task σ ε σ) s = (.ok s, s) := rfl

@[simp] theorem modify_run (f : σ → σ) (s : σ) :
    (modify f : Task σ ε PUnit) s = (.ok ⟨⟩, f s) := rfl

@[simp] theorem modifyGet_run (f : σ → α × σ) (s : σ) :
    (modifyGet f : Task σ ε α) s = (.ok (f s).1, (f s).2) := rfl

@[simp] theorem attempt_run (task : Task σ ε α) (s : σ) :
    (attempt task : Task σ ε' (Except ε α)) s = (.ok (task s).1, (task s).2) := rfl

@[simp] theorem ofExcept_ok (wrap : ε → ε') (a : α) (s : σ) :
    (ofExcept wrap (.ok a) : Task σ ε' α) s = (.ok a, s) := rfl

@[simp] theorem ofExcept_error (wrap : ε → ε') (e : ε) (s : σ) :
    (ofExcept wrap (.error e) : Task σ ε' α) s = (.error (wrap e), s) := rfl

@[simp] theorem bind_run (x : Task σ ε α) (f : α → Task σ ε β) (s : σ) :
    (x >>= f) s = match x s with
      | (.ok a, t) => f a t
      | (.error e, t) => (.error e, t) := by
  change ExceptT.bindCont f (x s).1 (x s).2 = _
  rcases x s with ⟨r, t⟩
  cases r <;> rfl

theorem snd_ignore (x : Task σ ε α) (s : σ) :
    ((do let _ ← x : Task σ ε PUnit) s).2 = (x s).2 := by
  rw [bind_run]
  rcases x s with ⟨r, t⟩
  cases r <;> rfl

@[simp] theorem map_run (f : α → β) (x : Task σ ε α) (s : σ) :
    (f <$> x) s = match x s with
      | (.ok a, t) => (.ok (f a), t)
      | (.error e, t) => (.error e, t) := by
  rw [map_eq_pure_bind, bind_run]
  rcases x s with ⟨r, t⟩
  cases r <;> rfl

theorem bind_ok {x : Task σ ε α} {f : α → Task σ ε β} {s t : σ} {a : α} (h : x s = (.ok a, t)) :
    (x >>= f) s = f a t := by
  rw [bind_run, h]

theorem bind_error {x : Task σ ε α} {f : α → Task σ ε β} {s t : σ} {e : ε}
    (h : x s = (.error e, t)) : (x >>= f) s = (.error e, t) := by
  rw [bind_run, h]

theorem bind_eq {x : Task σ ε α} {f : α → Task σ ε β} {s t : σ} {r : Except ε β}
    (h : (x >>= f) s = (r, t)) :
    (∃ a u, x s = (.ok a, u) ∧ f a u = (r, t)) ∨ ∃ e, x s = (.error e, t) ∧ r = .error e := by
  rw [bind_run] at h
  rcases hx : x s with ⟨r', u⟩
  rw [hx] at h
  cases r' with
  | ok a => exact .inl ⟨a, u, rfl, h⟩
  | error e => cases h; exact .inr ⟨e, rfl, rfl⟩

theorem of_bind_ok {x : Task σ ε α} {f : α → Task σ ε β} {s t : σ} {b : β}
    (h : (x >>= f) s = (.ok b, t)) : ∃ a u, x s = (.ok a, u) ∧ f a u = (.ok b, t) := by
  rcases bind_eq h with hok | ⟨e, -, he⟩
  · exact hok
  · cases he

theorem zoom_ok {get : σ → τ} {put : τ → σ → σ} {wrap : ε → ε'} {task : Task τ ε α} {s : σ}
    {a : α} {t : τ} (h : task (get s) = (.ok a, t)) :
    zoom get put wrap task s = (.ok a, put t s) := by
  simp only [zoom, h]

/--
From a state with `P` the task comes to one with `P`, with a result that has `Q` there if it
succeeds, and it goes alike on the states before and after `g`: it neither reads nor undoes what `g`
changes.
-/
def Respects (g : σ → σ) (P : σ → Prop) (Q : α → σ → Prop) (task : Task σ ε α) : Prop :=
  ∀ s, P s → P (task s).2 ∧ (∀ a, (task s).1 = .ok a → Q a (task s).2) ∧
    task (g s) = ((task s).1, g (task s).2)

section Respects

variable {g : σ → σ} {g' : τ → τ} {P P' : σ → Prop} {J : σ → τ → Prop} {Q Q' : α → σ → Prop}
  {R : β → σ → Prop} {task : Task σ ε α} {f : α → Task σ ε β}

theorem Respects.pure {a : α} (h : ∀ s, P s → Q a s) :
    Respects g P Q (Pure.pure a : Task σ ε α) :=
  fun s hs => ⟨hs, fun _ he => Except.ok.inj he ▸ h s hs, rfl⟩

theorem Respects.throw (e : ε) : Respects g P Q (MonadExcept.throw e : Task σ ε α) :=
  fun _ hs => ⟨hs, nofun, rfl⟩

theorem Respects.modify {m : σ → σ} (hp : ∀ s, P s → P (m s)) (hg : ∀ s, P s → m (g s) = g (m s)) :
    Respects g P (fun _ => P) (modify m : Task σ ε PUnit) :=
  fun s hs => ⟨hp s hs, fun _ _ => hp s hs, congrArg (Prod.mk _) (hg s hs)⟩

theorem Respects.modifyGet {m : σ → α × σ} (hp : ∀ s, P s → P (m s).2)
    (hg : ∀ s, P s → m (g s) = ((m s).1, g (m s).2)) :
    Respects g P (fun _ => P) (MonadStateOf.modifyGet m : Task σ ε α) := by
  intro s hs
  refine ⟨hp s hs, fun _ _ => hp s hs, ?_⟩
  change (Except.ok (m (g s)).1, (m (g s)).2) = _
  rw [hg s hs]
  rfl

theorem Respects.ofExcept {ε' : Type} (wrap : ε' → ε) (r : Except ε' α) :
    Respects g P (fun _ => P) (ofExcept wrap r : Task σ ε α) := by
  intro s hs
  cases r with
  | ok a => exact ⟨hs, fun _ _ => hs, rfl⟩
  | error e => exact ⟨hs, nofun, rfl⟩

theorem Respects.weaken (h : Respects g P Q task) (hq : ∀ a s, Q a s → Q' a s) :
    Respects g P Q' task :=
  fun s hs => ⟨(h s hs).1, fun a he => hq a _ ((h s hs).2.1 a he), (h s hs).2.2⟩

theorem Respects.knowing {p : Prop} (hp : ∀ s, P s → p) (h : p → Respects g P Q task) :
    Respects g P Q task :=
  fun s hs => h (hp s hs) s hs

theorem Respects.assume {p : Prop} (h : p → Respects g P Q task) :
    Respects g (fun s => P s ∧ p) Q task :=
  fun s hs => ⟨⟨(h hs.2 s hs.1).1, hs.2⟩, (h hs.2 s hs.1).2⟩

theorem Respects.bind (h : Respects g P Q task) (hq : ∀ a s, Q a s → P s)
    (hf : ∀ a, Respects g (Q a) R (f a)) : Respects g P R (task >>= f) := by
  intro s hs
  obtain ⟨hp, hqs, hgs⟩ := h s hs
  rw [bind_run, bind_run, hgs]
  rcases hrun : task s with ⟨r, t⟩
  rw [hrun] at hp hqs
  cases r with
  | error e => exact ⟨hp, nofun, rfl⟩
  | ok a =>
      obtain ⟨hp', hr, hgt⟩ := hf a t (hqs a rfl)
      exact ⟨hq a _ hp', hr, hgt⟩

theorem Respects.andThen (h : Respects g P (fun _ => P) task) (hf : ∀ a, Respects g P R (f a)) :
    Respects g P R (task >>= f) :=
  h.bind (fun _ _ hs => hs) hf

theorem Respects.throwThen (e : ε) (f : α → Task σ ε β) :
    Respects g P R (MonadExcept.throw e >>= f) :=
  fun _ hs => ⟨hs, nofun, rfl⟩

/--
What is read of the state is the same after `g`. What holds in that state, as long as it is kept, may
be used from then on.
-/
theorem Respects.getThen {f : σ → Task σ ε β} {P' : σ → σ → Prop} (hg : ∀ s, P s → f (g s) = f s)
    (hp : ∀ s, P s → P' s s) (hback : ∀ s t, P' s t → P t)
    (hf : ∀ s, P s → Respects g (P' s) R (f s)) : Respects g P R (get >>= f) := by
  intro s hs
  obtain ⟨hp', hr, hgs⟩ := hf s hs s (hp s hs)
  refine ⟨hback s _ hp', hr, ?_⟩
  change f (g s) (g s) = _
  rw [hg s hs]
  exact hgs

theorem Respects.get {f : σ → Task σ ε β} (hg : ∀ s, P s → f (g s) = f s)
    (hf : ∀ s, P s → Respects g P R (f s)) : Respects g P R (get >>= f) :=
  Respects.getThen hg (fun _ h => h) (fun _ _ h => h) hf

theorem Respects.read {f : σ → α} (hq : ∀ s, P s → Q (f s) s) (hg : ∀ s, P s → f (g s) = f s) :
    Respects g P Q (do return f (← MonadState.get) : Task σ ε α) :=
  fun s hs => ⟨hs, fun _ he => Except.ok.inj he ▸ hq s hs,
    congrArg (fun a => (Except.ok a, g s)) (hg s hs)⟩

theorem Respects.attempt (h : Respects g P (fun _ => P) task) :
    Respects g P (fun _ => P) (attempt task : Task σ ε' (Except ε α)) := by
  intro s hs
  obtain ⟨hp, -, hgs⟩ := h s hs
  refine ⟨hp, fun _ _ => hp, ?_⟩
  rw [attempt_run, attempt_run, hgs]

theorem Respects.zoom {get : σ → τ} {put : τ → σ → σ} {wrap : ε → ε'} {task : Task τ ε α}
    {K : σ → α → τ → Prop} (h : ∀ s, P s → Respects g' (J s) (K s) task)
    (hget : ∀ s, P s → J s (get s)) (hput : ∀ s t, P s → J s t → P (put t s))
    (hq : ∀ s a t, P s → K s a t → Q a (put t s)) (hg : ∀ s, get (g s) = g' (get s))
    (hgput : ∀ s t, put (g' t) (g s) = g (put t s)) :
    Respects g P Q (zoom get put wrap task) := by
  intro s hs
  obtain ⟨hj, hk, hgs⟩ := h s hs (get s) (hget s hs)
  rw [Task.zoom, Task.zoom, hg, hgs]
  rcases hrun : task (get s) with ⟨r, t⟩
  rw [hrun] at hj hk
  cases r with
  | ok a =>
      exact ⟨hput s t hs hj, fun _ he => Except.ok.inj he ▸ hq s a t hs (hk a rfl),
        congrArg (Prod.mk _) (hgput s t)⟩
  | error e => exact ⟨hput s t hs hj, nofun, congrArg (Prod.mk _) (hgput s t)⟩

/-- What is known of the outcomes is known of a task that goes alike before and after `g`. -/
theorem Respects.of_outcome (h : Respects g P' Q' task) (hp : ∀ s, P s → P' s)
    (ho : ∀ s, P s → P (task s).2 ∧ ∀ a, (task s).1 = .ok a → Q a (task s).2) :
    Respects g P Q task :=
  fun s hs => ⟨(ho s hs).1, (ho s hs).2, (h s (hp s hs)).2.2⟩

end Respects

/-- From a state with `P` the task comes to a result and a state with `Q`, or fails in one with `E`. -/
def Ensures (P : σ → Prop) (Q : α → σ → Prop) (E : ε → σ → Prop) (task : Task σ ε α) : Prop :=
  ∀ s, P s → match task s with
    | (.ok a, t) => Q a t
    | (.error e, t) => E e t

section Ensures

variable {P P' : σ → Prop} {Q Q' : α → σ → Prop} {R : β → σ → Prop} {E E' : ε → σ → Prop}
  {E₂ : ε' → σ → Prop} {task : Task σ ε α} {f : α → Task σ ε β}

theorem Ensures.run (h : Ensures P Q E task) {s t : σ} {r : Except ε α} (hp : P s)
    (hs : task s = (r, t)) : (∃ a, r = .ok a ∧ Q a t) ∨ ∃ e, r = .error e ∧ E e t := by
  have hrun := h s hp
  rw [hs] at hrun
  cases r with
  | ok a => exact .inl ⟨a, rfl, hrun⟩
  | error e => exact .inr ⟨e, rfl, hrun⟩

theorem Ensures.of_cases (h : ∀ s, P s → (∃ a t, task s = (.ok a, t) ∧ Q a t) ∨
    ∃ e t, task s = (.error e, t) ∧ E e t) : Ensures P Q E task := by
  intro s hs
  rcases h s hs with ⟨a, t, hrun, ht⟩ | ⟨e, t, hrun, ht⟩
  · rw [hrun]
    exact ht
  · rw [hrun]
    exact ht

theorem Ensures.mono (h : Ensures P Q E task) (hp : ∀ s, P' s → P s) (hq : ∀ a s, Q a s → Q' a s)
    (he : ∀ e s, E e s → E' e s) : Ensures P' Q' E' task := by
  intro s hs
  have hrun := h s (hp s hs)
  split
  · rename_i heq
    rw [heq] at hrun
    exact hq _ _ hrun
  · rename_i heq
    rw [heq] at hrun
    exact he _ _ hrun

theorem Ensures.and (h : Ensures P Q E task) (h' : Ensures P' Q' E' task) :
    Ensures (fun s => P s ∧ P' s) (fun a s => Q a s ∧ Q' a s) (fun e s => E e s ∧ E' e s) task := by
  rintro s ⟨hs, hs'⟩
  have hrun := h s hs
  have hrun' := h' s hs'
  split
  · rename_i heq
    rw [heq] at hrun hrun'
    exact ⟨hrun, hrun'⟩
  · rename_i heq
    rw [heq] at hrun hrun'
    exact ⟨hrun, hrun'⟩

theorem Ensures.pure {a : α} (h : ∀ s, P s → Q a s) :
    Ensures P Q E (Pure.pure a : Task σ ε α) := h

theorem Ensures.throw {e : ε} (h : ∀ s, P s → E e s) :
    Ensures P Q E (MonadExcept.throw e : Task σ ε α) := h

theorem Ensures.modify {m : σ → σ} {Q : PUnit → σ → Prop} (h : ∀ s, P s → Q ⟨⟩ (m s)) :
    Ensures P Q E (modify m : Task σ ε PUnit) := h

theorem Ensures.ofExcept {ε' : Type} {wrap : ε' → ε} {r : Except ε' α}
    (hq : ∀ a s, r = .ok a → P s → Q a s) (he : ∀ e s, P s → E (wrap e) s) :
    Ensures P Q E (ofExcept wrap r : Task σ ε α) := by
  intro s hs
  cases r with
  | ok a => exact hq a s rfl hs
  | error e => exact he e s hs

theorem Ensures.bind (h : Ensures P Q E task) (hf : ∀ a, Ensures (Q a) R E (f a)) :
    Ensures P R E (task >>= f) := by
  intro s hs
  have hrun := h s hs
  rw [bind_run]
  rcases hgo : task s with ⟨r, t⟩
  rw [hgo] at hrun
  cases r with
  | ok a => exact hf a t hrun
  | error e => exact hrun

theorem Ensures.get {f : σ → Task σ ε β} (hf : ∀ s, P s → Ensures (· = s) R E (f s)) :
    Ensures P R E (get >>= f) :=
  fun s hs => hf s hs s rfl

theorem Ensures.getThen {f : σ → Task σ ε β} (hf : ∀ s, P s → Ensures P R E (f s)) :
    Ensures P R E (MonadState.get >>= f) :=
  fun s hs => hf s hs s hs

theorem Ensures.attempt (h : Ensures P Q E task) :
    Ensures P (fun r s => (∀ a, r = .ok a → Q a s) ∧ ∀ e, r = .error e → E e s) E₂
      (attempt task : Task σ ε' (Except ε α)) := by
  intro s hs
  have hrun := h s hs
  rw [attempt_run]
  rcases hgo : task s with ⟨r, t⟩
  rw [hgo] at hrun
  cases r with
  | ok a => exact ⟨fun _ he => Except.ok.inj he ▸ hrun, nofun⟩
  | error e => exact ⟨nofun, fun _ he => Except.error.inj he ▸ hrun⟩

theorem Ensures.zoom {get : σ → τ} {put : τ → σ → σ} {wrap : ε → ε'} {task : Task τ ε α}
    {P₁ : τ → Prop} {Q₁ : α → τ → Prop} {E₁ : ε → τ → Prop} (h : Ensures P₁ Q₁ E₁ task)
    (hget : ∀ s, P s → P₁ (get s)) (hput : ∀ s a t, P s → Q₁ a t → Q a (put t s))
    (he : ∀ s e t, P s → E₁ e t → E₂ (wrap e) (put t s)) :
    Ensures P Q E₂ (zoom get put wrap task) := by
  intro s hs
  have hrun := h (get s) (hget s hs)
  rw [Task.zoom]
  rcases hgo : task (get s) with ⟨r, t⟩
  rw [hgo] at hrun
  cases r with
  | ok a => exact hput s a t hs hrun
  | error e => exact he s e t hs hrun

end Ensures

def Upholds (I : σ → Prop) (Q : α → Prop) (task : Task σ ε α) : Prop :=
  Ensures I (fun a s => I s ∧ Q a) (fun _ => I) task

section Upholds

variable {I : σ → Prop} {Q : α → Prop} {R : β → Prop} {task : Task σ ε α} {f : α → Task σ ε β}

theorem Upholds.then (h : Upholds I Q task) (hf : ∀ a, Q a → Upholds I R (f a)) :
    Upholds I R (task >>= f) := by
  refine Ensures.bind h fun a => ?_
  intro s hs
  exact hf a hs.2 s hs.1

theorem Upholds.pure {a : α} (h : Q a) : Upholds I Q (Pure.pure a : Task σ ε α) :=
  Ensures.pure fun _ hs => ⟨hs, h⟩

theorem Upholds.throw (e : ε) : Upholds I Q (MonadExcept.throw e : Task σ ε α) :=
  Ensures.throw fun _ hs => hs

theorem Upholds.get {f : σ → Task σ ε β} (hf : ∀ s, I s → Upholds I R (f s)) :
    Upholds I R (MonadState.get >>= f) :=
  Ensures.get fun s hs => (hf s hs).mono (fun _ he => he ▸ hs) (fun _ _ ht => ht) fun _ _ ht => ht

theorem Upholds.ofExcept {ε' : Type} (wrap : ε' → ε) (r : Except ε' α) :
    Upholds I (fun _ => True) (Task.ofExcept wrap r) :=
  Ensures.ofExcept (fun _ _ _ hs => ⟨hs, trivial⟩) fun _ _ hs => hs

theorem Upholds.attempt (h : Upholds I Q task) :
    Upholds I (fun r => ∀ a, r = .ok a → Q a) (Task.attempt task : Task σ ε' (Except ε α)) := by
  refine (Ensures.attempt h).mono (fun _ hs => hs) (fun r s hs => ?_) fun _ _ hs => hs
  cases r with
  | ok a => exact ⟨(hs.1 a rfl).1, fun _ he => Except.ok.inj he ▸ (hs.1 a rfl).2⟩
  | error e => exact ⟨hs.2 e rfl, nofun⟩

theorem Upholds.state {s : σ} (h : Upholds I Q task) (hs : I s) : I (task s).2 := by
  rcases hgo : task s with ⟨r, t⟩
  rcases Ensures.run h hs hgo with ⟨a, -, ht, -⟩ | ⟨e, -, ht⟩
  · exact ht
  · exact ht

end Upholds

/-- The task keeps `I`, and an error of it is one of `E`. -/
def Abides (I : σ → Prop) (E : ε → Prop) (task : Task σ ε α) : Prop :=
  Ensures I (fun _ => I) (fun e s => I s ∧ E e) task

section Abides

variable {I : σ → Prop} {E : ε → Prop} {Q : α → Prop} {task : Task σ ε α} {f : α → Task σ ε β}

theorem Upholds.abides (h : Upholds I Q task) : Abides I (fun _ => True) task :=
  Ensures.mono h (fun _ hs => hs) (fun _ _ hs => hs.1) fun _ _ hs => ⟨hs, trivial⟩

theorem Abides.upholds (h : Abides I E task) : Upholds I (fun _ => True) task :=
  Ensures.mono h (fun _ hs => hs) (fun _ _ hs => ⟨hs, trivial⟩) fun _ _ hs => hs.1

theorem Abides.any (task : Task σ ε α) : Abides (fun _ => True) (fun _ => True) task := by
  intro s _
  split
  · trivial
  · exact ⟨trivial, trivial⟩

theorem Abides.then (h : Abides I E task) (hf : ∀ a, Abides I E (f a)) : Abides I E (task >>= f) :=
  Ensures.bind h hf

theorem Abides.pure (a : α) : Abides I E (Pure.pure a : Task σ ε α) := Ensures.pure fun _ hs => hs

theorem Abides.throw {e : ε} (h : E e) : Abides I E (MonadExcept.throw e : Task σ ε α) :=
  Ensures.throw fun _ hs => ⟨hs, h⟩

theorem Abides.get {f : σ → Task σ ε β} (hf : ∀ s, Abides I E (f s)) :
    Abides I E (MonadState.get >>= f) :=
  Ensures.get fun s hs => (hf s).mono (fun _ he => he ▸ hs) (fun _ _ ht => ht) fun _ _ ht => ht

theorem Abides.ofExcept {ε' : Type} {wrap : ε' → ε} {r : Except ε' α}
    (h : ∀ e, r = .error e → E (wrap e)) : Abides I E (Task.ofExcept wrap r) := by
  cases r with
  | ok a => exact Abides.pure a
  | error e => exact Abides.throw (h e rfl)

end Abides

end Task

namespace Hosted

variable {α β ε : Type}

@[simp] theorem update_run (f : α → α) (s : Hosted α) :
    (update f : Task (Hosted α) ε Unit) s = (.ok (), { s with self := f s.self }) := rfl

@[simp] theorem report_run (event : Event) (s : Hosted α) :
    (report event : Task (Hosted α) ε Unit) s =
      (.ok (), { s with host := { s.host with events := event :: s.host.events } }) := rfl

def withDisk (s : Hosted α) (d : Disk) : Hosted α := { s with host := { s.host with disk := d } }

@[simp] theorem self_withDisk (s : Hosted α) (d : Disk) : (s.withDisk d).self = s.self := rfl

@[simp] theorem disk_withDisk (s : Hosted α) (d : Disk) : (s.withDisk d).host.disk = d := rfl

@[simp] theorem onDisk_run (task : DiskTask β) (s : Hosted α) :
    onDisk task s = match task s.host.disk with
      | (.ok b, d) => (.ok b, s.withDisk d)
      | (.error e, d) => (.error (.disk e), s.withDisk d) := by
  simp only [onDisk, onHost, Host.onDisk, Task.zoom, withDisk]
  rcases task s.host.disk with ⟨r, d⟩
  cases r <;> rfl

end Hosted

end MeteredStorage
