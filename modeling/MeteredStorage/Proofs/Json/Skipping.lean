import MeteredStorage.Proofs.Json.Reading
import Mathlib.Data.List.DropRight

namespace MeteredStorage.Json

open Decimal

variable {s v f x ds name rest : List Char} {n : Nat} {frames : List Frame} {sym : Symbol}

theorem skipString_text (h : StringText s) (rest : List Char) : skipString (s ++ rest) = some rest := by
  induction h with
  | close => rw [List.singleton_append, skipString]
  | plain hc _ ih =>
      obtain ⟨hquote, hescape, hcontrol⟩ := isPlain_iff.mp hc
      rw [List.cons_append, skipString.eq_4 _ _ hquote (fun _ _ _ _ _ he => absurd he hescape)
        (fun _ _ he => absurd he hescape), if_neg (Nat.not_lt.mpr hcontrol), ih]
  | short he _ ih =>
      rw [List.cons_append, List.cons_append,
        skipString.eq_3 _ _ (fun _ _ _ _ _ hu _ => ne_unit_of_escaped he hu), he, Option.bind_some, ih]
  | unit hu _ ih => simp only [List.cons_append, skipString, hu, Option.bind_some, ih]

theorem skipDigits_text (h : IsDigits ds) (hrest : endsDigits rest = true) :
    skipDigits (ds ++ rest) = some rest := by
  obtain ⟨hne, hdigit⟩ := h
  cases ds with
  | nil => exact absurd rfl hne
  | cons d ds =>
      rw [List.cons_append, skipDigits, if_pos (hdigit d (List.mem_cons_self ..)),
        List.dropWhile_append_of_pos fun c hc => hdigit c (List.mem_cons_of_mem _ hc),
        dropWhile_of_endsDigits hrest]

/-- After a fraction no digit stands, and no second point. -/
theorem exponent_head (h : ExponentText x) (hrest : endsNumber rest = true) :
    endsDigits (x ++ rest) = true ∧ (x ++ rest).head? ≠ some '.' := by
  cases h with
  | absent =>
      refine ⟨endsDigits_of_endsNumber hrest, ?_⟩
      cases rest with
      | nil => exact nofun
      | cons c cs =>
          rintro hdot
          obtain rfl := Option.some.inj hdot
          cases hrest
  | unsigned he _ => obtain rfl | rfl := he <;> exact ⟨rfl, by simp⟩
  | signed he _ _ => obtain rfl | rfl := he <;> exact ⟨rfl, by simp⟩

theorem skipFraction_text (h : FractionText f) (hrest : endsDigits rest = true)
    (hdot : rest.head? ≠ some '.') : skipFraction (f ++ rest) = some rest := by
  cases h with
  | absent =>
      rw [List.nil_append, skipFraction.eq_def]
      split
      · exact absurd rfl hdot
      · rfl
  | present hd => exact skipDigits_text hd hrest

theorem skipExponent_text (h : ExponentText x) (hrest : endsNumber rest = true) :
    skipExponent (x ++ rest) = some rest := by
  have hdigits := endsDigits_of_endsNumber hrest
  cases h with
  | absent =>
      cases rest with
      | nil => rfl
      | cons c cs =>
          have hc : ¬(c = 'e' ∨ c = 'E') := by
            rintro (rfl | rfl) <;> cases hrest
          rw [List.nil_append, skipExponent.eq_def]
          exact if_neg hc
  | @unsigned e ds he hd =>
      -- A digit is no sign.
      have hsign : ∀ sign cs, Char.isDigit sign = false → ds ++ rest = sign :: cs → False := by
        intro sign cs hsign hds
        obtain ⟨d, ds', rfl⟩ := List.exists_cons_of_ne_nil hd.ne_nil
        obtain ⟨rfl, -⟩ := List.cons.inj hds
        exact absurd (hd.isDigit _ (List.mem_cons_self ..)) (by simp [hsign])
      rw [List.cons_append, skipExponent.eq_3 _ _ (fun _ => hsign '+' _ rfl) (fun _ => hsign '-' _ rfl),
        if_pos he, skipDigits_text hd hdigits]
  | signed he hs hd =>
      obtain rfl | rfl := hs
      · rw [List.cons_append, List.cons_append, skipExponent, if_pos he, skipDigits_text hd hdigits]
      · rw [List.cons_append, List.cons_append, skipExponent, if_pos he, skipDigits_text hd hdigits]

theorem skipNumber_text (h : NumberText s) (hrest : endsNumber rest = true) :
    skipNumber (s ++ rest) = some rest := by
  have hunsigned : ∀ (m : Nat) {f x : List Char}, FractionText f → ExponentText x →
      ((digits? (ofNat m ++ (f ++ (x ++ rest)))).bind fun r => (skipFraction r.2).bind skipExponent) =
        some rest := by
    intro m f x hf hx
    obtain ⟨hdigits, hdot⟩ := exponent_head hx hrest
    have hfraction : endsDigits (f ++ (x ++ rest)) = true := by
      cases hf with
      | absent => exact hdigits
      | present _ => rfl
    rw [digits?_ofNat m hfraction, Option.bind_some, skipFraction_text hf hdigits hdot, Option.bind_some,
      skipExponent_text hx hrest]
  cases h with
  | unsigned m hf hx =>
      obtain ⟨c, cs, hc, hdigit⟩ := ofNat_eq_cons m
      have hskip := hunsigned m hf hx
      rw [hc, List.cons_append] at hskip
      rw [hc, List.cons_append, List.cons_append, List.append_assoc, List.append_assoc, skipNumber.eq_def]
      dsimp only
      split
      · next heq =>
          obtain ⟨rfl, -⟩ := List.cons.inj heq
          cases hdigit
      · exact hskip
  | negative m hf hx =>
      simp only [List.cons_append, List.append_assoc]
      exact hunsigned m hf hx

theorem numberText_head (h : NumberText s) : ∃ c cs, s = c :: cs ∧ (c.isDigit = true ∨ c = '-') := by
  cases h with
  | unsigned m _ _ =>
      obtain ⟨c, cs, hc, hdigit⟩ := ofNat_eq_cons m
      rw [hc]
      exact ⟨c, _, rfl, .inl hdigit⟩
  | negative m _ _ => exact ⟨'-', _, rfl, .inr rfl⟩

theorem value_head (h : JsonText .value v) : ∃ c cs, v = c :: cs ∧ isBlank c = false ∧ c ≠ ']' := by
  cases h with
  | number hs =>
      obtain ⟨c, cs, rfl, hdigit | rfl⟩ := numberText_head hs
      · exact ⟨c, cs, rfl, isBlank_of_isDigit hdigit, by rintro rfl; cases hdigit⟩
      · exact ⟨'-', cs, rfl, rfl, by decide⟩
  | null | true | false | string | emptyArray | array | emptyObject | object =>
      exact ⟨_, _, rfl, rfl, by decide⟩

def Frame.opening : Frame → Char
  | .array => '['
  | .object => '\x7b'

def Frame.closing : Frame → Char
  | .array => ']'
  | .object => '\x7d'

def Frame.expected : Frame → Expected
  | .array => .value
  | .object => .member

def Frame.symbol : Frame → Symbol
  | .array => .elements
  | .object => .members

@[simp]
theorem member_append (sp : Spacing) (name v s rest : List Char) :
    sp.member name v s ++ rest = sp.member name v (s ++ rest) := by
  simp [Spacing.member]

theorem skipBlanks_member (sp : Spacing) (name v s : List Char) :
    skipBlanks (sp.member name v s) = '"' :: (name ++ (sp.afterName.chars ++ ':' ::
      (sp.beforeValue.chars ++ (v ++ (sp.afterValue.chars ++ s))))) := by
  rw [Spacing.member, skipBlanks_blanks, skipBlanks_cons rfl]

/-- The inside of an array or object that is not empty does not begin with its end. -/
theorem inside_head {g : Frame} (h : JsonText g.symbol s) (rest : List Char) :
    ∃ c cs, skipBlanks (s ++ rest) = c :: cs ∧ c ≠ g.closing := by
  cases g with
  | array =>
      cases h with
      | lastElement b b' hv | nextElement b b' hv _ =>
          obtain ⟨c, cs, rfl, hblank, hne⟩ := value_head hv
          simp only [List.append_assoc, skipBlanks_blanks, List.cons_append, skipBlanks_cons hblank]
          exact ⟨c, _, rfl, hne⟩
  | object =>
      cases h with
      | lastMember | nextMember =>
          rw [member_append, skipBlanks_member]
          exact ⟨'"', _, rfl, by decide⟩

-- One lemma for each step follows; only these unfold `skipFrom`.
attribute [local simp] skipFrom

theorem skipFrom_skipBlanks {e : Expected} (he : e = .value ∨ e = .member) (n : Nat)
    (frames : List Frame) (s : List Char) :
    skipFrom n e frames (skipBlanks s) = skipFrom n e frames s := by
  have hs : skipBlanks (skipBlanks s) = skipBlanks s := List.dropWhile_idempotent ..
  cases n with
  | zero => rfl
  | succ n =>
      obtain rfl | rfl := he
      · simp [hs]
      · simp [hs]

theorem skipFrom_blanks (n : Nat) (frames : List Frame) (b : Blanks) (s : List Char) :
    skipFrom n .value frames (b.chars ++ s) = skipFrom n .value frames s := by
  rw [← skipFrom_skipBlanks (.inl rfl) n frames s, ← skipBlanks_blanks b, skipFrom_skipBlanks (.inl rfl)]

theorem skipFrom_number (h : NumberText s) (hrest : endsNumber rest = true) :
    skipFrom (n + 1) .value frames (s ++ rest) = skipFrom n .continuation frames rest := by
  have hskip := skipNumber_text h hrest
  obtain ⟨c, cs, rfl, hc⟩ := numberText_head h
  have hblank : isBlank c = false := by
    obtain hdigit | rfl := hc
    · exact isBlank_of_isDigit hdigit
    · rfl
  rw [List.cons_append] at hskip ⊢
  rw [skipFrom.eq_2, skipBlanks_cons hblank]
  split
  case h_7 => rw [hskip, Option.bind_some]
  all_goals
    next heq =>
      obtain ⟨rfl, -⟩ := List.cons.inj heq
      obtain hdigit | hsign := hc
      · cases hdigit
      · cases hsign

theorem skipFrom_string (h : StringText s) (rest : List Char) :
    skipFrom (n + 1) .value frames ('"' :: (s ++ rest)) = skipFrom n .continuation frames rest := by
  simp [skipBlanks_cons (c := '"') rfl, skipString_text h]

theorem skipFrom_empty (g : Frame) (b : Blanks) (rest : List Char) :
    skipFrom (n + 1) .value frames (g.opening :: (b.chars ++ g.closing :: rest)) =
      skipFrom n .continuation frames rest := by
  cases g with
  | array => simp [Frame.opening, Frame.closing, skipBlanks_cons (c := '[') rfl, skipBlanks_cons (c := ']') rfl]
  | object =>
      simp [Frame.opening, Frame.closing, skipBlanks_cons (c := '\x7b') rfl, skipBlanks_cons (c := '\x7d') rfl]

theorem skipFrom_open {g : Frame} {t cs : List Char} {c : Char} (h : skipBlanks t = c :: cs)
    (hc : c ≠ g.closing) :
    skipFrom (n + 1) .value frames (g.opening :: t) = skipFrom n g.expected (g :: frames) t := by
  have hexpected : g.expected = .value ∨ g.expected = .member := by cases g <;> simp [Frame.expected]
  rw [← skipFrom_skipBlanks hexpected n _ t]
  cases g <;>
    · rw [skipFrom.eq_2, Frame.opening, skipBlanks_cons rfl]
      simp only [h]
      split
      · next heq => exact absurd (List.cons.inj heq).1 hc
      · rfl

theorem skipFrom_comma (g : Frame) (b : Blanks) (rest : List Char) :
    skipFrom (n + 1) .continuation (g :: frames) (b.chars ++ ',' :: rest) =
      skipFrom n g.expected (g :: frames) rest := by
  cases g <;> simp [Frame.expected, skipBlanks_cons (c := ',') rfl]

theorem skipFrom_close (g : Frame) (b : Blanks) (rest : List Char) :
    skipFrom (n + 1) .continuation (g :: frames) (b.chars ++ g.closing :: rest) =
      skipFrom n .continuation frames rest := by
  cases g with
  | array => simp [Frame.closing, skipBlanks_cons (c := ']') rfl]
  | object => simp [Frame.closing, skipBlanks_cons (c := '\x7d') rfl]

theorem skipFrom_member (h : StringText name) (sp : Spacing) (v rest : List Char) :
    skipFrom (n + 1) .member frames (sp.member name v rest) =
      skipFrom n .value frames (v ++ (sp.afterValue.chars ++ rest)) := by
  simp [skipBlanks_member, skipString_text h, skipBlanks_cons (c := ':') rfl, skipFrom_blanks]

def Symbol.expected : Symbol → Expected
  | .value | .elements => .value
  | .members => .member

def Symbol.inside (frames : List Frame) : Symbol → List Frame
  | .value => frames
  | .elements => .array :: frames
  | .members => .object :: frames

def Skips (k : Nat) (sym : Symbol) (s : List Char) : Prop :=
  ∀ (n : Nat) (frames : List Frame) (rest : List Char), endsNumber rest = true →
    skipFrom (n + k) sym.expected (sym.inside frames) (s ++ rest) = skipFrom n .continuation frames rest

namespace Skips

variable {k l : Nat}

theorem value_close (hv : Skips k .value v) (n : Nat) (g : Frame) (b : Blanks) (rest : List Char) :
    skipFrom (n + 1 + k) .value (g :: frames) (v ++ (b.chars ++ g.closing :: rest)) =
      skipFrom n .continuation frames rest := by
  have hends : endsNumber (b.chars ++ g.closing :: rest) = true :=
    endsNumber_blanks b (by cases g <;> rfl)
  exact (hv (n + 1) (g :: frames) _ hends).trans (skipFrom_close g b rest)

theorem value_comma (hv : Skips k .value v) (n : Nat) (g : Frame) (b : Blanks) (rest : List Char) :
    skipFrom (n + 1 + k) .value (g :: frames) (v ++ (b.chars ++ ',' :: rest)) =
      skipFrom n g.expected (g :: frames) rest :=
  (hv (n + 1) (g :: frames) _ (endsNumber_blanks b rfl)).trans (skipFrom_comma g b rest)

theorem array (hs : JsonText .elements s) (h : Skips k .elements s) :
    Skips (k + 1) .value ('[' :: s) := fun n frames rest hrest => by
  obtain ⟨c, cs, hhead, hne⟩ := inside_head (g := .array) hs rest
  exact (skipFrom_open hhead hne).trans (h n frames rest hrest)

theorem object (hs : JsonText .members s) (h : Skips k .members s) :
    Skips (k + 1) .value ('\x7b' :: s) := fun n frames rest hrest => by
  obtain ⟨c, cs, hhead, hne⟩ := inside_head (g := .object) hs rest
  exact (skipFrom_open hhead hne).trans (h n frames rest hrest)

theorem lastElement (hv : Skips k .value v) (b b' : Blanks) :
    Skips (1 + k) .elements (b.chars ++ (v ++ (b'.chars ++ [']']))) := fun n frames rest _ => by
  simp only [List.append_assoc]
  rw [← Nat.add_assoc, Symbol.expected, skipFrom_blanks]
  exact hv.value_close n .array b' rest

theorem nextElement (hv : Skips k .value v) (h : Skips l .elements s) (b b' : Blanks) :
    Skips (l + 1 + k) .elements (b.chars ++ (v ++ (b'.chars ++ ',' :: s))) := fun n frames rest hrest => by
  simp only [List.append_assoc, List.cons_append]
  rw [← Nat.add_assoc, ← Nat.add_assoc, Symbol.expected, skipFrom_blanks]
  exact (hv.value_comma (n + l) .array b' (s ++ rest)).trans (h n frames rest hrest)

theorem lastMember (hname : StringText name) (hv : Skips k .value v) (sp : Spacing) :
    Skips (1 + k + 1) .members (sp.member name v ['\x7d']) := fun n frames rest _ => by
  rw [member_append, ← Nat.add_assoc, ← Nat.add_assoc]
  exact (skipFrom_member hname sp v _).trans (hv.value_close n .object sp.afterValue rest)

theorem nextMember (hname : StringText name) (hv : Skips k .value v) (h : Skips l .members s)
    (sp : Spacing) :
    Skips (l + 1 + k + 1) .members (sp.member name v (',' :: s)) := fun n frames rest hrest => by
  rw [member_append, ← Nat.add_assoc, ← Nat.add_assoc, ← Nat.add_assoc]
  exact (skipFrom_member hname sp v _).trans
    ((hv.value_comma (n + l) .object sp.afterValue (s ++ rest)).trans (h n frames rest hrest))

end Skips

/-- Passing over a text of the grammar takes no more steps than it has characters. -/
theorem skips_text (h : JsonText sym s) : ∃ k ≤ s.length, Skips k sym s := by
  induction h with
  | null | true | false => exact ⟨1, by decide, fun _ _ _ _ => rfl⟩
  | number hs =>
      obtain ⟨c, cs, hc, -⟩ := numberText_head hs
      exact ⟨1, by simp [hc], fun _ _ _ hrest => skipFrom_number hs hrest⟩
  | string hs => exact ⟨1, by simp, fun _ _ rest _ => skipFrom_string hs rest⟩
  | emptyArray b =>
      refine ⟨1, by simp, fun n frames rest _ => ?_⟩
      rw [List.cons_append, List.append_assoc]
      exact skipFrom_empty .array b rest
  | emptyObject b =>
      refine ⟨1, by simp, fun n frames rest _ => ?_⟩
      rw [List.cons_append, List.append_assoc]
      exact skipFrom_empty .object b rest
  | array hs ih =>
      obtain ⟨k, hk, hskip⟩ := ih
      exact ⟨k + 1, by simpa using hk, hskip.array hs⟩
  | object hs ih =>
      obtain ⟨k, hk, hskip⟩ := ih
      exact ⟨k + 1, by simpa using hk, hskip.object hs⟩
  | lastElement b b' _ ih =>
      obtain ⟨k, hk, hskip⟩ := ih
      refine ⟨1 + k, ?_, hskip.lastElement b b'⟩
      simp only [List.length_append, List.length_singleton]
      omega
  | nextElement b b' _ _ ihv ihs =>
      obtain ⟨k, hk, hskip⟩ := ihv
      obtain ⟨l, hl, hskip'⟩ := ihs
      refine ⟨l + 1 + k, ?_, hskip.nextElement hskip' b b'⟩
      simp only [List.length_append, List.length_cons]
      omega
  | lastMember sp hname _ ih =>
      obtain ⟨k, hk, hskip⟩ := ih
      refine ⟨1 + k + 1, ?_, hskip.lastMember hname sp⟩
      simp only [Spacing.member, List.length_append, List.length_cons, List.length_nil]
      omega
  | nextMember sp hname _ _ ihv ihs =>
      obtain ⟨k, hk, hskip⟩ := ihv
      obtain ⟨l, hl, hskip'⟩ := ihs
      refine ⟨l + 1 + k + 1, ?_, hskip.nextMember hname hskip' sp⟩
      simp only [Spacing.member, List.length_append, List.length_cons]
      omega

theorem skipValue_text (h : JsonText .value v) (b : Blanks) (hrest : endsNumber rest = true) :
    skipValue (b.chars ++ (v ++ rest)) = some rest := by
  obtain ⟨k, hk, hskip⟩ := skips_text h
  obtain ⟨n, hn⟩ : ∃ n, (b.chars ++ (v ++ rest)).length + 1 = n + 1 + k :=
    ⟨(b.chars ++ (v ++ rest)).length - k, by simp only [List.length_append]; omega⟩
  rw [skipValue, hn, skipFrom_blanks]
  exact (hskip (n + 1) [] rest hrest).trans (skipFrom.eq_4 rest n)

end MeteredStorage.Json
