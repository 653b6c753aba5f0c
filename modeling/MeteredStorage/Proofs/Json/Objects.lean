import MeteredStorage.Proofs.Json.Skipping
import Mathlib.Data.List.Permutation

namespace MeteredStorage.Json

variable {ε α : Type} {field : List Char → α → Reader ε α} {effect : Member → α → Except (Fault ε) α}
  {known ms : List Member} {m : Member} {name spelled v s text : List Char}

def Reads (field : List Char → α → Reader ε α) (m : Member) (effect : α → Except (Fault ε) α) : Prop :=
  ∀ (state : α) (b : Blanks) (rest : List Char), endsNumber rest = true →
    field m.1 state (b.chars ++ (m.2 ++ rest)) = (effect state).map (·, rest)

theorem reads_unknown (hfield : field m.1 = unknownField) (hv : JsonText .value m.2) :
    Reads field m .ok := fun state b rest hrest => by
  rw [hfield, unknownField, skipValue_text hv b hrest]
  rfl

theorem fieldsFrom_member (hname : Spells name spelled) (n : Nat) (state : α) (sp : Spacing)
    (v rest : List Char) :
    fieldsFrom field (n + 1) true state (sp.member spelled v rest) =
      (field name state (sp.beforeValue.chars ++ (v ++ (sp.afterValue.chars ++ rest)))).bind
        fun r => fieldsFrom field n false r.1 r.2 := by
  have hstring := fun t => string?_spells hname t
  rw [fieldsFrom.eq_def]
  simp only [skipBlanks_member]
  change (lift string? _).bind _ = _
  rw [lift, hstring]
  simp only [Except.bind, skipBlanks_blanks, skipBlanks_cons (c := ':') rfl]
  rfl

theorem fieldsFrom_comma (n : Nat) (state : α) (b : Blanks) (sp : Spacing) (name v s : List Char) :
    fieldsFrom field (n + 1) false state (b.chars ++ ',' :: sp.member name v s) =
      fieldsFrom field (n + 1) true state (sp.member name v s) := by
  rw [fieldsFrom.eq_def, fieldsFrom.eq_def _ _ true]
  simp only [skipBlanks_blanks, skipBlanks_cons (c := ',') rfl, skipBlanks_member]
  rfl

theorem fieldsFrom_brace (n : Nat) (first : Bool) (state : α) (b : Blanks) (rest : List Char) :
    fieldsFrom field (n + 1) first state (b.chars ++ '\x7d' :: rest) = .ok (state, rest) := by
  rw [fieldsFrom.eq_def]
  simp only [skipBlanks_blanks, skipBlanks_cons (c := '\x7d') rfl]
  rfl

theorem membersText_cons (h : MembersText ms s) :
    ∃ sp spelled v t, s = Spacing.member sp spelled v t := by
  cases h with
  | last | next => exact ⟨_, _, _, _, rfl⟩

theorem length_membersText (h : MembersText ms s) : ms.length ≤ s.length := by
  induction h with
  | last =>
      simp only [Spacing.member, List.length_append, List.length_cons, List.length_nil]
      omega
  | next _ _ _ ih =>
      simp only [Spacing.member, List.length_append, List.length_cons]
      omega

/-- Reading the members of an object is their effects, one after another. -/
theorem fieldsFrom_membersText (h : MembersText ms s) (hreads : ∀ m ∈ ms, Reads field m (effect m))
    (n : Nat) (state : α) (rest : List Char) :
    fieldsFrom field (n + ms.length + 1) true state (s ++ rest) =
      (ms.foldlM (fun a m => effect m a) state).map (·, rest) := by
  induction h generalizing state with
  | @last name spelled v sp hname =>
      have hread := hreads (name, v) (List.mem_singleton_self _) state sp.beforeValue
        (sp.afterValue.chars ++ ('\x7d' :: rest)) (endsNumber_blanks _ rfl)
      rw [member_append, fieldsFrom_member hname, List.singleton_append, hread]
      cases hstate : effect (name, v) state with
      | error e => simp [hstate, Except.map, Except.bind, bind]
      | ok mid =>
          simp only [hstate, Except.map, Except.bind, List.foldlM_cons, List.foldlM_nil, bind]
          exact fieldsFrom_brace _ _ _ _ _
  | @next name spelled v s ms sp hname hs ih =>
      have hread := hreads (name, v) (List.mem_cons_self ..) state sp.beforeValue
        (sp.afterValue.chars ++ ',' :: (s ++ rest)) (endsNumber_blanks _ rfl)
      rw [member_append, fieldsFrom_member hname, List.cons_append, hread]
      cases hstate : effect (name, v) state with
      | error e => simp [hstate, Except.map, Except.bind, bind]
      | ok mid =>
          obtain ⟨sp', spelled', v', t, rfl⟩ := membersText_cons hs
          simp only [hstate, Except.map, Except.bind, List.foldlM_cons, bind, List.length_cons]
          rw [member_append, ← Nat.add_assoc, fieldsFrom_comma, ← member_append]
          exact ih (fun m hm => hreads m (List.mem_cons_of_mem _ hm)) mid

def isKnown (known : List Member) (m : Member) : Bool := decide (m.1 ∈ known.map Prod.fst)

theorem isKnown_of_mem (h : m ∈ known) : isKnown known m = true := decide_eq_true (List.mem_map_of_mem h)

theorem isKnown_of_not_mem (h : m.1 ∉ known.map Prod.fst) : ¬isKnown known m = true := by
  simpa [isKnown] using h

theorem filter_isKnown {others : List Member} (hperm : ms.Perm (known ++ others))
    (hothers : ∀ m ∈ others, m.1 ∉ known.map Prod.fst) : (ms.filter (isKnown known)).Perm known := by
  have hall : known.filter (isKnown known) = known :=
    List.filter_eq_self.mpr fun _ hm => isKnown_of_mem hm
  have hnone : others.filter (isKnown known) = [] :=
    List.filter_eq_nil_iff.mpr fun m hm => isKnown_of_not_mem (hothers m hm)
  have hfilter := hperm.filter (isKnown known)
  rwa [List.filter_append, hnone, List.append_nil, hall] at hfilter

theorem fields_isObject (hknown : ∀ m ∈ known, Reads field m (effect m))
    (hother : ∀ name, name ∉ known.map Prod.fst → field name = unknownField)
    (h : IsObject known text) (start : α) :
    ∃ (s : List Char) (ordered : List Member), text = '\x7b' :: s ∧ ordered.Perm known ∧
      ∀ rest, fields field start (s ++ rest) =
        (ordered.foldlM (fun a m => effect m a) start).map (·, rest) := by
  obtain ⟨s, ms, others, rfl, hs, hperm, hothers⟩ := h
  have hreads : ∀ m ∈ ms, Reads field m (if isKnown known m then effect m else .ok) := by
    intro m hm
    obtain hm | hm := List.mem_append.mp (hperm.mem_iff.mp hm)
    · rw [if_pos (isKnown_of_mem hm)]
      exact hknown m hm
    · rw [if_neg (isKnown_of_not_mem (hothers m hm).1)]
      exact reads_unknown (hother m.1 (hothers m hm).1) (hothers m hm).2
  refine ⟨s, ms.filter (isKnown known), rfl, filter_isKnown hperm fun m hm => (hothers m hm).1,
    fun rest => ?_⟩
  obtain ⟨n, hn⟩ : ∃ n, (s ++ rest).length = n + ms.length :=
    Nat.exists_eq_add_of_le' (by rw [List.length_append]; have := length_membersText hs; omega)
  rw [fields, hn, fieldsFrom_membersText hs hreads, List.foldlM_filter]
  congr 2
  funext a m
  split <;> rfl

theorem fields_pair {m' : Member} {e e' : α → Except (Fault ε) α} (start : α)
    (answer : Except (Fault ε) α) (hne : m ≠ m') (hm : Reads field m e) (hm' : Reads field m' e')
    (hother : ∀ name, name ∉ [m.1, m'.1] → field name = unknownField)
    (hfirst : (e start).bind e' = answer) (hsecond : (e' start).bind e = answer)
    (h : IsObject [m, m'] text) :
    ∃ s, text = '\x7b' :: s ∧ ∀ rest, fields field start (s ++ rest) = answer.map (·, rest) := by
  have hknown : ∀ n ∈ [m, m'], Reads field n (if n = m then e else e') := by
    intro n hn
    obtain rfl | hn := List.mem_cons.mp hn
    · rwa [if_pos rfl]
    · obtain rfl := List.mem_singleton.mp hn
      rwa [if_neg (Ne.symm hne)]
  obtain ⟨s, ordered, hs, hperm, hfields⟩ := fields_isObject hknown hother h start
  refine ⟨s, hs, fun rest => ?_⟩
  rw [hfields]
  obtain rfl | rfl := List.perm_pair.mp hperm
  · simp only [List.foldlM_cons, List.foldlM_nil, bind_pure, ↓reduceIte, if_neg (Ne.symm hne)]
    exact congrArg (Except.map (·, rest)) hfirst
  · simp only [List.foldlM_cons, List.foldlM_nil, bind_pure, ↓reduceIte, if_neg (Ne.symm hne)]
    exact congrArg (Except.map (·, rest)) hsecond

theorem isObject_pair (name name' v v' : List Char) (h : name.all isPlain = true)
    (h' : name'.all isPlain = true) :
    IsObject [(name, v), (name', v')] ('\x7b' :: '"' :: (name ++ '"' :: ':' :: (v ++
      ',' :: '"' :: (name' ++ '"' :: ':' :: (v' ++ ['\x7d']))))) := by
  refine ⟨_, [(name, v), (name', v')], [], rfl, ?_, List.Perm.of_eq (List.append_nil _).symm, nofun⟩
  have hlast := MembersText.last (v := v') .none (spells_plain name' h')
  have hboth := MembersText.next (v := v) .none (spells_plain name h) hlast
  simpa [Spacing.member, Spacing.none, Blanks.none] using hboth

theorem whole_of_read {read : Reader ε α} {answer : Except (Fault ε) α} (b : Blanks)
    (h : read text = answer.map (·, b.chars)) : whole read text = answer := by
  have hblank : skipBlanks b.chars = [] := List.dropWhile_eq_nil_iff.mpr b.blank
  rw [whole, h]
  cases answer with
  | error e => rfl
  | ok a => simp [Except.map, bind, Except.bind, hblank]

end MeteredStorage.Json
