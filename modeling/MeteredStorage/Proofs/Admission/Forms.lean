import MeteredStorage.Admission.Usage.Text
import MeteredStorage.Proofs.Json.Objects

namespace MeteredStorage

open Json

namespace Instant

theorem ofParts?_self (t : Instant) : ofParts? t.seconds t.nanos = some t := dif_pos t.nanos_lt

theorem ofWords_self (t : Instant) : ofWords t.seconds.toInt (t.nanos.toNat : Int) = .ok t := by
  have hlt := t.nanos.toNat_lt
  simp only [ofWords, Int64.ofInt_toInt, Int.toNat_natCast, UInt32.ofNat_toNat, ofParts?_self]
  rw [if_pos ⟨by omega, by omega⟩]

theorem quoted_append (name s : List Char) :
    quoted name ++ ':' :: s = '"' :: (name ++ '"' :: ':' :: s) := by
  simp [quoted]

def members (seconds nanos : Int) : List Member :=
  [(secondsName, Decimal.ofInt seconds), (nanosName, Decimal.ofInt nanos)]

def IsWord (n : Int) : Prop := -0x8000000000000000 ≤ n ∧ n < 0x8000000000000000

variable {seconds nanos n : Int} {text : List Char}

theorem isWord_toInt (w : Int64) : IsWord w.toInt := by
  have hlo := w.le_toInt
  have hhi := w.toInt_lt
  exact ⟨by omega, by omega⟩

theorem word_ofInt (h : IsWord n) (b : Blanks) (rest : List Char) (hrest : endsNumber rest = true) :
    word (b.chars ++ (Decimal.ofInt n ++ rest)) = .ok (n, rest) :=
  integerIn_ofInt b h.1 h.2 hrest

theorem nanosName_ne : nanosName ≠ secondsName := by decide

theorem reads_seconds (h : IsWord seconds) : Reads field (secondsName, Decimal.ofInt seconds)
    fun d => if d.seconds.isSome then .error .malformed else .ok { d with seconds := some seconds } := by
  intro d b rest hrest
  dsimp only
  rw [field, if_pos rfl, word_ofInt h b rest hrest, apply_ite (Except.map _)]
  rfl

theorem reads_nanos (h : IsWord nanos) : Reads field (nanosName, Decimal.ofInt nanos)
    fun d => if d.nanos.isSome then .error .malformed else .ok { d with nanos := some nanos } := by
  intro d b rest hrest
  dsimp only
  rw [field, if_neg nanosName_ne, if_pos rfl, word_ofInt h b rest hrest, apply_ite (Except.map _)]
  rfl

theorem field_other (name : List Char) (h : name ∉ [secondsName, nanosName]) :
    field name = unknownField := by
  simp only [List.mem_cons, List.not_mem_nil, or_false, not_or] at h
  funext d s
  rw [field, if_neg h.1, if_neg h.2]

theorem read_isObject (h : IsObject (members seconds nanos) text) (hs : IsWord seconds)
    (hn : IsWord nanos) (b : Blanks) (rest : List Char) :
    read (b.chars ++ (text ++ rest)) = (ofWords seconds nanos).map (·, rest) := by
  obtain ⟨s, rfl, hfields⟩ := fields_pair ⟨none, none⟩ (.ok ⟨some seconds, some nanos⟩)
    (by simp [nanosName_ne.symm]) (reads_seconds hs) (reads_nanos hn) field_other rfl rfl h
  rw [read, skipBlanks_blanks, List.cons_append, skipBlanks_cons rfl]
  simp only [hfields, Except.map, bind, Except.bind]
  cases ofWords seconds nanos <;> rfl

theorem toJson_isObject (t : Instant) : IsObject (members t.seconds.toInt t.nanos.toNat) t.toJson := by
  have hpair := isObject_pair secondsName nanosName (Decimal.ofInt t.seconds.toInt)
    (Decimal.ofInt t.nanos.toNat) rfl rfl
  simp only [toJson, quoted_append]
  exact hpair

theorem read_toJson (t : Instant) (b : Blanks) (rest : List Char) :
    read (b.chars ++ (t.toJson ++ rest)) = .ok (t, rest) := by
  have hlt := t.nanos.toNat_lt
  rw [read_isObject t.toJson_isObject (isWord_toInt _) ⟨by omega, by omega⟩, ofWords_self]
  rfl

theorem ofJson_toJson (t : Instant) : ofJson t.toJson = .ok t := by
  have hread := t.read_toJson .none []
  rw [List.append_nil] at hread
  exact whole_of_read .none hread

end Instant

namespace Usage

def members (used : UInt64) (time : List Char) : List Member :=
  [(usedName, Decimal.ofInt used.toNat), (timeName, time)]

def timeText (last : Option Instant) : List Char :=
  match last with
  | some t => t.toJson
  | none => ['n', 'u', 'l', 'l']

/-- Whatever blanks stand before the text of a time, it is read as `answer`. -/
def TimeReads (time : List Char) (answer : Except (Fault AdmissionError) (Option Instant)) : Prop :=
  ∀ (b : Blanks) (rest : List Char),
    nullable Instant.read (b.chars ++ (time ++ rest)) = answer.map (·, rest)

variable {time text : List Char} {answer : Except (Fault AdmissionError) (Option Instant)}

theorem timeReads_null : TimeReads ['n', 'u', 'l', 'l'] (.ok none) := fun b rest => by
  rw [nullable, skipBlanks_blanks]
  rfl

theorem timeReads_isObject {seconds nanos : Int} (h : IsObject (Instant.members seconds nanos) time)
    (hs : Instant.IsWord seconds) (hn : Instant.IsWord nanos) :
    TimeReads time ((Instant.ofWords seconds nanos).map some) := fun b rest => by
  have hread := Instant.read_isObject h hs hn .none rest
  obtain ⟨s, ms, others, rfl, -⟩ := h
  rw [nullable, skipBlanks_blanks, List.cons_append, skipBlanks_cons rfl]
  change (Instant.read _).map _ = _
  rw [Blanks.none, List.nil_append, List.cons_append] at hread
  rw [hread]
  cases Instant.ofWords seconds nanos <;> rfl

theorem timeReads_timeText (last : Option Instant) : TimeReads (timeText last) (.ok last) := by
  cases last with
  | none => exact timeReads_null
  | some t =>
      have hlt := t.nanos.toNat_lt
      have hreads := timeReads_isObject t.toJson_isObject (Instant.isWord_toInt _) ⟨by omega, by omega⟩
      rwa [Instant.ofWords_self] at hreads

theorem timeName_ne : timeName ≠ usedName := by decide

theorem reads_used (used : UInt64) : Reads field (usedName, Decimal.ofInt used.toNat)
    fun d => if d.used.isSome then .error .malformed else .ok { d with used := some used.toNat } := by
  intro d b rest hrest
  have hlt := used.toNat_lt
  have hamount : amount (b.chars ++ (Decimal.ofInt used.toNat ++ rest)) = .ok ((used.toNat : Int), rest) :=
    integerIn_ofInt b (by omega) (by omega) hrest
  dsimp only
  rw [field, if_pos rfl, hamount, apply_ite (Except.map _)]
  rfl

theorem reads_time (h : TimeReads time answer) : Reads field (timeName, time)
    fun d => if d.time.isSome then .error .malformed
      else answer.map fun t => { d with time := some t } := by
  intro d b rest _
  dsimp only
  rw [field, if_neg timeName_ne, if_pos rfl, h b rest, apply_ite (Except.map _)]
  cases answer <;> rfl

theorem field_other (name : List Char) (h : name ∉ [usedName, timeName]) :
    field name = unknownField := by
  simp only [List.mem_cons, List.not_mem_nil, or_false, not_or] at h
  funext d s
  rw [field, if_neg h.1, if_neg h.2]

theorem readText_isObject {used : UInt64} (h : IsObject (members used time) text)
    (htime : TimeReads time answer) (b : Blanks) (rest : List Char) :
    readText (b.chars ++ (text ++ rest)) = (answer.map (Usage.mk used)).map (·, rest) := by
  obtain ⟨s, rfl, hfields⟩ := fields_pair ⟨none, none⟩
    (answer.map fun t => ⟨some (used.toNat : Int), some t⟩) (by simp [timeName_ne.symm])
    (reads_used used) (reads_time htime) field_other rfl (by cases answer <;> rfl) h
  rw [readText, skipBlanks_blanks, List.cons_append, skipBlanks_cons rfl]
  simp only [hfields, bind]
  cases answer with
  | error e => rfl
  | ok t => simp [Except.map, Except.bind, pure, Except.pure]

theorem toJson_isObject (u : Usage) : IsObject (members u.used (timeText u.last)) u.toJson := by
  have hpair := isObject_pair usedName timeName (Decimal.ofInt u.used.toNat) (timeText u.last) rfl rfl
  simp only [toJson, Instant.quoted_append]
  exact hpair

theorem ofJson_toJson (u : Usage) : ofJson u.toJson = .ok u := by
  have hread := readText_isObject u.toJson_isObject (timeReads_timeText u.last) .none []
  rw [List.append_nil] at hread
  exact whole_of_read .none hread

open BigEndian

theorem length_encode (u : Usage) : u.encode.length = size := by
  rw [encode]
  cases u.last <;> simp [size]

theorem toWord32_take (w : UInt32) : toWord32 ((ofWord32 w).take 4) = w := by
  rw [List.take_of_length_le (by simp), toWord32_ofWord32]

theorem ofBytes_encode (u : Usage) : ofBytes u.encode = .ok u := by
  obtain ⟨used, last⟩ := u
  cases last with
  | none => simp [ofBytes, encode, Bytes.slice, List.drop_append, List.drop_of_length_le, toWord32_take]
  | some t =>
      simp [ofBytes, encode, Bytes.slice, List.drop_append, List.drop_of_length_le, toWord32_take,
        Instant.ofParts, Instant.ofParts?_self]
      rfl

theorem read_encode (u : Usage) (rest : Bytes) : read (u.encode ++ rest) = (.ok u, rest) := by
  simp only [read, Bytes.split?_eq_some_iff.mpr ⟨u.length_encode, rfl⟩, ofBytes_encode]

theorem decode_encode (u : Usage) : decode u.encode = .ok u := by
  have hread := u.read_encode []
  rw [List.append_nil] at hread
  rw [decode, hread]

end Usage

end MeteredStorage
