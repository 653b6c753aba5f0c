import MeteredStorage.Proofs.Admission.Forms
import MeteredStorage.Proofs.Instant.Order

namespace MeteredStorage

open Json

variable {α β : Type} {seconds nanos : Int64} {text : List Char}

def IsFraction (nanos : Int64) : Prop := 0 ≤ nanos.toInt ∧ nanos.toInt < nanosPerSecond

structure Judged (seconds nanos : Int64) (make : Instant → α) (answer : Except (Fault AdmissionError) α) :
    Prop where
  ok_iff : (∃ a, answer = .ok a) ↔ IsFraction nanos
  parts : ∀ a, answer = .ok a →
    ∃ t : Instant, a = make t ∧ t.seconds = seconds ∧ (t.nanos.toNat : Int) = nanos.toInt
  refusal : ¬IsFraction nanos → answer = .error (.refused (.invalidInstant seconds nanos))

namespace Judged

theorem map {make : Instant → α} {answer : Except (Fault AdmissionError) α}
    (h : Judged seconds nanos make answer) (f : α → β) :
    Judged seconds nanos (fun t => f (make t)) (answer.map f) where
  ok_iff := by
    rw [← h.ok_iff]
    cases answer <;> simp [Except.map]
  parts b hb := by
    cases answer with
    | error e => cases hb
    | ok a =>
        obtain rfl := Except.ok.inj hb
        obtain ⟨t, rfl, ht⟩ := h.parts a rfl
        exact ⟨t, rfl, ht⟩
  refusal hn := by rw [h.refusal hn]; rfl

end Judged

namespace Instant

theorem ofWords_fraction (seconds : Int64) (h : IsFraction nanos) :
    ∃ t : Instant, ofWords seconds.toInt nanos.toInt = .ok t ∧ t.seconds = seconds ∧
      (t.nanos.toNat : Int) = nanos.toInt := by
  obtain ⟨hlo, hhi⟩ := h
  have hword : nanos.toInt < 0x100000000 := hhi.trans (by decide)
  have hnanos := toNat_narrowed hlo hword
  have hlt : (UInt32.ofNat nanos.toInt.toNat).toNat < nanosPerSecond := by omega
  refine ⟨⟨seconds, _, hlt⟩, ?_, rfl, hnanos⟩
  simp only [ofWords, Int64.ofInt_toInt, ofParts?, dif_pos hlt]
  exact if_pos ⟨hlo, hword⟩

theorem ofWords_refused (h : ¬IsFraction nanos) :
    ofWords seconds.toInt nanos.toInt = .error (.refused (.invalidInstant seconds nanos)) := by
  simp only [ofWords, Int64.ofInt_toInt]
  split
  · next hword =>
      have hnanos := toNat_narrowed hword.1 hword.2
      have hge : ¬(UInt32.ofNat nanos.toInt.toNat).toNat < nanosPerSecond := fun hlt =>
        h ⟨hword.1, by omega⟩
      rw [ofParts?, dif_neg hge]
  · rfl

theorem ofWords_judged (seconds nanos : Int64) :
    Judged seconds nanos id (ofWords seconds.toInt nanos.toInt) := by
  by_cases h : IsFraction nanos
  · obtain ⟨t, ht, hparts⟩ := ofWords_fraction seconds h
    rw [ht]
    refine ⟨⟨fun _ => h, fun _ => ⟨t, rfl⟩⟩, ?_, (absurd h ·)⟩
    intro a ha
    obtain rfl := Except.ok.inj ha
    exact ⟨t, rfl, hparts⟩
  · rw [ofWords_refused h]
    exact ⟨⟨nofun, (absurd · h)⟩, nofun, fun _ => rfl⟩

def foreignText : List Char := "\x7b\"nanos\":-5, \"x\" : [1.5e+3,\x7b\x7d],\"epochSeconds\":1\x7d".toList

theorem isObject_foreignText :
    IsObject (members (1 : Int64).toInt (-5 : Int64).toInt) foreignText := by
  have hfraction : FractionText ['.', '5'] :=
    .present ⟨List.cons_ne_nil _ _, List.forall_mem_singleton.mpr rfl⟩
  have hexponent : ExponentText ['e', '+', '3'] :=
    .signed (.inl rfl) (.inl rfl) ⟨List.cons_ne_nil _ _, List.forall_mem_singleton.mpr rfl⟩
  have hnumber : JsonText .value ['1', '.', '5', 'e', '+', '3'] :=
    .number (.unsigned 1 hfraction hexponent)
  have hvalue : JsonText .value "[1.5e+3,\x7b\x7d]".toList :=
    .array (.nextElement .none .none hnumber (.lastElement .none .none (.emptyObject .none)))
  let blank : Blanks := ⟨[' '], List.forall_mem_singleton.mpr rfl⟩
  have hlast := MembersText.last (v := ['1']) .none (spells_plain secondsName rfl)
  have hother := MembersText.next (v := "[1.5e+3,\x7b\x7d]".toList) ⟨blank, blank, blank, .none⟩
    (spells_plain ['x'] rfl) hlast
  have hall := MembersText.next (v := ['-', '5']) .none (spells_plain nanosName rfl) hother
  refine ⟨_, _, [(['x'], "[1.5e+3,\x7b\x7d]".toList)], rfl, hall, by decide, fun m hm => ?_⟩
  obtain rfl := List.mem_singleton.mp hm
  exact ⟨by decide, hvalue⟩

end Instant

namespace Usage

/--
Both forms come back from their own text. An object that gives an instant's two words, in whichever
order and among whatever other members, is judged by the words alone; so is a usage's object around it.
-/
theorem ofJson_exact :
    (∀ t : Instant, Instant.ofJson t.toJson = .ok t) ∧ (∀ u : Usage, ofJson u.toJson = .ok u) ∧
      ∀ (seconds nanos : Int64) (text : List Char),
        IsObject (Instant.members seconds.toInt nanos.toInt) text →
        (∀ before after : Blanks, Judged seconds nanos id
          (Instant.ofJson (before.chars ++ (text ++ after.chars)))) ∧
        ∀ (used : UInt64) (whole : List Char), IsObject (members used text) whole →
          ∀ before after : Blanks, Judged seconds nanos (fun t => ⟨used, some t⟩)
            (ofJson (before.chars ++ (whole ++ after.chars))) := by
  refine ⟨Instant.ofJson_toJson, ofJson_toJson, fun seconds nanos text h => ⟨fun before after => ?_,
    fun used whole hwhole before after => ?_⟩⟩
  · have hread := Instant.read_isObject h (Instant.isWord_toInt seconds) (Instant.isWord_toInt nanos)
      before after.chars
    rw [Instant.ofJson, whole_of_read after hread]
    exact Instant.ofWords_judged seconds nanos
  · have htime := timeReads_isObject h (Instant.isWord_toInt seconds) (Instant.isWord_toInt nanos)
    have hread := readText_isObject hwhole htime before after.chars
    rw [ofJson, whole_of_read after hread]
    exact ((Instant.ofWords_judged seconds nanos).map some).map (Usage.mk used)

theorem ofJson_exact_foreign :
    IsObject (Instant.members (1 : Int64).toInt (-5 : Int64).toInt) Instant.foreignText ∧
      IsObject (members 7 Instant.foreignText)
        ("\x7b\"used\":7,\"lastDecisionTime\":".toList ++ (Instant.foreignText ++ ['\x7d'])) ∧
      Instant.ofJson Instant.foreignText = .error (.refused (.invalidInstant 1 (-5))) ∧
      ofJson ("\x7b\"used\":7,\"lastDecisionTime\":".toList ++ (Instant.foreignText ++ ['\x7d'])) =
        .error (.refused (.invalidInstant 1 (-5))) := by
  have hpair := isObject_pair usedName timeName ['7'] Instant.foreignText rfl rfl
  obtain ⟨-, -, hjudged⟩ := ofJson_exact
  obtain ⟨hinstant, husage⟩ := hjudged 1 (-5) Instant.foreignText Instant.isObject_foreignText
  have hrefused := (hinstant .none .none).refusal (by unfold IsFraction; decide)
  have hrefused' := (husage 7 _ hpair .none .none).refusal (by unfold IsFraction; decide)
  rw [Blanks.none, List.nil_append, List.append_nil] at hrefused hrefused'
  exact ⟨Instant.isObject_foreignText, hpair, hrefused, hrefused'⟩

end Usage

end MeteredStorage
