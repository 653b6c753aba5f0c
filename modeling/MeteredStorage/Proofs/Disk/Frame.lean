import MeteredStorage.Disk.Operations
import MeteredStorage.Proofs.Task

namespace MeteredStorage.Disk

variable {d d' d'' : Disk} {path : Path} {slot : Nat}

theorem entries_insertNode (d : Disk) (p : Place) (node : Node) (n : Nat) :
    (d.insertNode p node).entries n =
      if n = p.directory ∧ n < d.directories.size then d.entries n ++ [(p.name, node)]
      else d.entries n := by
  simp only [insertNode, entries, Array.getElem?_modify]
  by_cases h : p.directory = n
  · subst h
    by_cases hs : p.directory < d.directories.size
    · simp [hs]
    · simp [hs]
  · simp [h, Ne.symm h]

theorem entries_eraseNode (d : Disk) (p : Place) (n : Nat) :
    (d.eraseNode p).entries n =
      if n = p.directory then (d.entries n).filter (·.1 != p.name) else d.entries n := by
  simp only [eraseNode, entries, Array.getElem?_modify]
  by_cases h : p.directory = n
  · subst h
    cases d.directories[p.directory]? <;> simp
  · simp [h, Ne.symm h]

theorem node?_insertNode {p : Place} (hp : p.directory < d.directories.size)
    (hn : d.node? p = none) (node : Node) (q : Place) :
    (d.insertNode p node).node? q = if q = p then some node else d.node? q := by
  simp only [node?, entries_insertNode] at hn ⊢
  by_cases hd : q.directory = p.directory
  · rw [if_pos ⟨hd, hd ▸ hp⟩, List.lookup_append]
    by_cases hq : q = p
    · subst hq
      simp [hn]
    · have hname : (q.name == p.name) = false := by
        rw [beq_eq_false_iff_ne]
        intro he
        exact hq (by cases p; cases q; simp_all)
      rw [if_neg hq]
      simp [List.lookup_cons, hname]
  · rw [if_neg (fun h => hd h.1), if_neg (fun h : q = p => hd (by rw [h]))]

theorem node?_insertNode_iff {p : Place} (hn : d.node? p = none) {node other : Node}
    (hne : other ≠ node) (q : Place) :
    (d.insertNode p node).node? q = some other ↔ d.node? q = some other := by
  by_cases hp : p.directory < d.directories.size
  · rw [node?_insertNode hp hn]
    by_cases hq : q = p
    · rw [if_pos hq, hq, hn]
      simp [hne.symm]
    · rw [if_neg hq]
  · have he : (d.insertNode p node).entries q.directory = d.entries q.directory := by
      rw [entries_insertNode, if_neg]
      rintro ⟨h, hlt⟩
      exact hp (h ▸ hlt)
    rw [node?, node?, he]

theorem lookup_filter_ne (entries : List (String × Node)) (name other : String) :
    (entries.filter (·.1 != name)).lookup other =
      if other = name then none else entries.lookup other := by
  induction entries with
  | nil => simp
  | cons e rest ih =>
      obtain ⟨file, node⟩ := e
      by_cases hf : file = name
      · subst hf
        rw [List.filter_cons_of_neg (by simp), ih]
        by_cases ho : other = file
        · simp [ho]
        · rw [if_neg ho, if_neg ho, List.lookup_cons, beq_false_of_ne ho]
      · rw [List.filter_cons_of_pos (by simp [hf]), List.lookup_cons, List.lookup_cons, ih]
        by_cases ho : other = file
        · subst ho
          simp [hf]
        · simp [beq_false_of_ne ho]

theorem node?_eraseNode (d : Disk) (p q : Place) :
    (d.eraseNode p).node? q = if q = p then none else d.node? q := by
  simp only [node?, entries_eraseNode]
  by_cases hd : q.directory = p.directory
  · rw [if_pos hd, lookup_filter_ne]
    by_cases hn : q.name = p.name
    · rw [if_pos hn, if_pos (by cases p; cases q; simp_all)]
    · rw [if_neg hn, if_neg (fun h : q = p => hn (by rw [h]))]
  · rw [if_neg hd, if_neg (fun h : q = p => hd (by rw [h]))]

theorem mem_of_node? {p : Place} {node : Node} (h : d.node? p = some node) :
    (p.name, node) ∈ d.entries p.directory := by
  obtain ⟨front, back, he, -⟩ := List.lookup_eq_some_iff.mp h
  rw [he]
  exact List.mem_append_right _ (List.mem_cons_self ..)

theorem content_setContent (d : Disk) (slot other : Nat) (bytes : Bytes) :
    (d.setContent slot bytes).content other =
      if other = slot ∧ slot < d.contents.length then bytes else d.content other := by
  simp only [setContent, content, List.getElem?_set]
  by_cases h : slot = other
  · subst h
    by_cases hs : slot < d.contents.length
    · simp [hs]
    · simp [hs]
  · simp [h, Ne.symm h]

def Keeps (d d' : Disk) : Prop :=
  ∀ p n, d.node? p = some (.directory n) → d'.node? p = some (.directory n)

theorem meaning_directory (h : Keeps d d') {trail : Trail} {name : String} {n : Nat}
    (hm : d.meaning trail name = .ok (some (.directory n))) :
    d'.meaning trail name = .ok (some (.directory n)) := by
  unfold meaning at hm ⊢
  split at hm
  · cases hm
  · rename_i hs
    rw [if_neg hs, h _ _ (Except.ok.inj hm)]

theorem walk_mono (h : Keeps d d') {pieces : List String} {trail reached : Trail}
    (hw : d.walk trail pieces = .ok reached) : d'.walk trail pieces = .ok reached := by
  induction pieces generalizing trail with
  | nil => exact hw
  | cons piece pieces ih =>
      unfold walk at hw ⊢
      split at hw
      · rename_i hs
        rw [if_pos hs]
        exact ih hw
      · rename_i hs
        rw [if_neg hs]
        split at hw
        · rename_i hu
          rw [if_pos hu]
          exact ih hw
        · rename_i hu
          rw [if_neg hu]
          split at hw
          · cases hw
          · cases hw
          · cases hw
          · rename_i n hm
            rw [meaning_directory h hm]
            exact ih hw

theorem target_eq_ok {t : Target} (h : d.target path = .ok t) :
    admitPath path = .ok () ∧
      ((path.reverse.dropWhile (· = "") = [] ∧ t = Target.directory [] "") ∨
        ∃ last outer trail, path.reverse.dropWhile (· = "") = last :: outer ∧
          d.walk [] outer.reverse = .ok trail ∧
          t = if last = "." then Target.directory trail last
            else if last = ".." then Target.directory trail.tail last
            else Target.name trail last (path.getLast? = some "")) := by
  simp only [target, bind, Except.bind, pure, Except.pure] at h
  cases ha : admitPath path with
  | error e => simp [ha] at h
  | ok u =>
      rw [ha] at h
      refine ⟨rfl, ?_⟩
      simp only at h
      split at h
      · rename_i hp
        cases h
        exact .inl ⟨hp, rfl⟩
      · rename_i last outer hp
        cases hw : d.walk [] outer.reverse with
        | error e => simp [hw] at h
        | ok trail =>
            refine .inr ⟨last, outer, trail, hp, hw, ?_⟩
            simp only [hw] at h
            split at h
            · cases h; rw [if_pos ‹_›]
            · rw [if_neg ‹_›]
              split at h
              · cases h; rw [if_pos ‹_›]
              · cases h; rw [if_neg ‹_›]

theorem target_of_walk {last : String} {outer : List String} {trail : Trail}
    (ha : admitPath path = .ok ()) (hp : path.reverse.dropWhile (· = "") = last :: outer)
    (hw : d.walk [] outer.reverse = .ok trail) :
    d.target path = .ok (if last = "." then Target.directory trail last
      else if last = ".." then Target.directory trail.tail last
      else Target.name trail last (path.getLast? = some "")) := by
  simp only [target, ha, hp, hw, bind, Except.bind, pure, Except.pure]
  split
  · rfl
  · split <;> rfl

theorem target_mono (h : Keeps d d') {t : Target} (ht : d.target path = .ok t) :
    d'.target path = .ok t := by
  obtain ⟨ha, ⟨hp, rfl⟩ | ⟨last, outer, trail, hp, hw, rfl⟩⟩ := target_eq_ok ht
  · simp [target, ha, hp, bind, Except.bind, pure, Except.pure]
  · exact target_of_walk ha hp (walk_mono h hw)

/-- Where paths lead depends on the names only. -/
theorem walk_congr (h : d'.directories = d.directories) (trail : Trail) (pieces : List String) :
    d'.walk trail pieces = d.walk trail pieces := by
  induction pieces generalizing trail with
  | nil => rfl
  | cons piece pieces ih => simp only [walk, meaning, node?, entries, h, ih]

theorem target_congr (h : d'.directories = d.directories) (path : Path) :
    d'.target path = d.target path := by
  simp only [target, walk_congr h]

theorem find_congr (h : d'.directories = d.directories) (path : Path) :
    d'.find path = d.find path := by
  simp only [find, target_congr h, meaning, node?, entries, h]

theorem find_name {trail : Trail} {name : String} {closed : Bool}
    (ht : d.target path = .ok (.name trail name closed)) :
    d.find path = match d.meaning trail name with
      | .error e => .error e
      | .ok (some (.file slot)) => if closed then .error .notADirectory else .ok (some (.file slot))
      | .ok node => .ok node := by
  simp only [find, ht, bind, Except.bind]
  cases d.meaning trail name with
  | error e => rfl
  | ok node =>
      rcases node with _ | _ | slot
      · rfl
      · rfl
      · cases closed <;> rfl

theorem find_here {trail : Trail} {piece : String}
    (ht : d.target path = .ok (.directory trail piece)) :
    d.find path = .ok (some (.directory (Trail.number trail))) := by
  simp only [find, ht, bind, Except.bind]
  rfl

theorem find_directory_mono (h : Keeps d d') {n : Nat}
    (hf : d.find path = .ok (some (.directory n))) : d'.find path = .ok (some (.directory n)) := by
  cases ht : d.target path with
  | error e => simp [find, ht, bind, Except.bind] at hf
  | ok t =>
      have ht' := target_mono h ht
      cases t with
      | directory trail piece => rw [find_here ht'] ; rwa [find_here ht] at hf
      | name trail name closed =>
          rw [find_name ht] at hf
          rw [find_name ht']
          cases hm : d.meaning trail name with
          | error e => simp [hm] at hf
          | ok node =>
              rcases node with _ | m | slot
              · simp [hm] at hf
              · simp only [hm, Except.ok.injEq, Option.some.injEq, Node.directory.injEq] at hf
                rw [meaning_directory h hm, hf]
              · cases closed <;> simp [hm] at hf

def HasFile (d : Disk) (path : Path) (slot : Nat) : Prop :=
  ∃ trail name, d.target path = .ok (.name trail name false) ∧
    d.meaning trail name = .ok (some (.file slot))

theorem HasFile.find (h : HasFile d path slot) : d.find path = .ok (some (.file slot)) := by
  obtain ⟨trail, name, ht, hm⟩ := h
  rw [find_name ht, hm]
  rfl

theorem HasFile.admitted (h : HasFile d path slot) : admitPath path = .ok () := by
  obtain ⟨trail, name, ht, -⟩ := h
  exact (target_eq_ok ht).1

theorem meaning_eq_ok {trail : Trail} {name : String} {node : Option Node}
    (h : d.meaning trail name = .ok node) :
    name.utf8ByteSize ≤ maxNameSize ∧ d.node? (Trail.place trail name) = node := by
  unfold meaning at h
  split at h
  · cases h
  · exact ⟨Nat.le_of_not_lt ‹_›, Except.ok.inj h⟩

theorem meaning_of_node {trail : Trail} {name : String} (hs : name.utf8ByteSize ≤ maxNameSize) :
    d.meaning trail name = .ok (d.node? (Trail.place trail name)) := by
  rw [meaning, if_neg (Nat.not_lt.mpr hs)]

/-- `d'` comes from `d` by changes that touch no file whose slot satisfies `P` and no directory. -/
structure Frame (P : Nat → Prop) (d d' : Disk) : Prop where
  directories : ∀ p n, d'.node? p = some (.directory n) ↔ d.node? p = some (.directory n)
  files : ∀ p slot, P slot → d.node? p = some (.file slot) → d'.node? p = some (.file slot)
  content : ∀ slot, P slot → slot < d.contents.length → d'.content slot = d.content slot
  length : d.contents.length ≤ d'.contents.length
  size : d'.directories.size = d.directories.size
  opened : d.opened ≤ d'.opened

variable {P Q : Nat → Prop}

theorem Frame.keeps (h : Frame P d d') : Keeps d d' := fun p n => (h.directories p n).mpr

theorem Frame.refl (P : Nat → Prop) (d : Disk) : Frame P d d :=
  ⟨fun _ _ => Iff.rfl, fun _ _ _ h => h, fun _ _ _ => rfl, Nat.le_refl _, rfl, Nat.le_refl _⟩

theorem Frame.trans (h : Frame P d d') (h' : Frame P d' d'') : Frame P d d'' where
  directories p n := (h'.directories p n).trans (h.directories p n)
  files p slot hp hn := h'.files p slot hp (h.files p slot hp hn)
  content slot hp hs := by
    rw [h'.content slot hp (Nat.lt_of_lt_of_le hs h.length), h.content slot hp hs]
  length := Nat.le_trans h.length h'.length
  size := h'.size.trans h.size
  opened := Nat.le_trans h.opened h'.opened

theorem HasFile.mono (hf : HasFile d path slot) (hk : Keeps d d')
    (hn : ∀ p, d.node? p = some (.file slot) → d'.node? p = some (.file slot)) :
    HasFile d' path slot := by
  obtain ⟨trail, name, ht, hm⟩ := hf
  obtain ⟨hs, hp⟩ := meaning_eq_ok hm
  exact ⟨trail, name, target_mono hk ht, by rw [meaning_of_node hs, hn _ hp]⟩

theorem HasFile.frame (hf : HasFile d path slot) (h : Frame P d d') (hp : P slot) :
    HasFile d' path slot := hf.mono h.keeps fun p => h.files p slot hp

structure Sound (d : Disk) : Prop where
  root : 0 < d.directories.size
  number_lt : ∀ p n, d.node? p = some (.directory n) → n < d.directories.size

theorem Sound.frame (hd : Sound d) (h : Frame P d d') : Sound d' where
  root := h.size ▸ hd.root
  number_lt p n hn := h.size ▸ hd.number_lt p n ((h.directories p n).mp hn)

theorem Sound.walk_lt (hd : Sound d) {pieces : List String} {trail reached : Trail}
    (ht : ∀ n ∈ trail, n < d.directories.size) (hw : d.walk trail pieces = .ok reached) :
    ∀ n ∈ reached, n < d.directories.size := by
  induction pieces generalizing trail with
  | nil => cases hw; exact ht
  | cons piece pieces ih =>
      unfold walk at hw
      split at hw
      · exact ih ht hw
      · split at hw
        · exact ih (fun n hn => ht n (List.mem_of_mem_tail hn)) hw
        · split at hw
          · cases hw
          · cases hw
          · cases hw
          · rename_i number hm
            refine ih (fun n hn => ?_) hw
            rcases List.mem_cons.mp hn with rfl | hn
            · exact hd.number_lt _ _ (meaning_eq_ok hm).2
            · exact ht n hn

theorem Sound.number_of_trail (hd : Sound d) {trail : Trail}
    (ht : ∀ n ∈ trail, n < d.directories.size) : Trail.number trail < d.directories.size := by
  cases trail with
  | nil => exact hd.root
  | cons n trail => exact ht n (List.mem_cons_self ..)

theorem Sound.target_lt (hd : Sound d) {trail : Trail} {name : String} {closed : Bool}
    (ht : d.target path = .ok (.name trail name closed)) :
    Trail.number trail < d.directories.size := by
  obtain ⟨-, ⟨-, he⟩ | ⟨last, outer, reached, -, hw, he⟩⟩ := target_eq_ok ht
  · cases he
  · split at he
    · cases he
    · split at he
      · cases he
      · cases he
        exact hd.number_of_trail (hd.walk_lt (by simp) hw)

end MeteredStorage.Disk
