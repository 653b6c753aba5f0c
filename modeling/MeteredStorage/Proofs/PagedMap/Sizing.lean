import Mathlib.Algebra.Order.Floor.Div
import MeteredStorage.PagedMap.Opening
import MeteredStorage.Proofs.Task
import MeteredStorage.Proofs.Word

namespace MeteredStorage

namespace Word

def leadingZeros (n : Nat) : Nat := if n = 0 then 64 else 63 - n.log2

def quotient? (n divisor : Nat) : Option Nat := if divisor = 0 then none else some (n / divisor)

def quotientUp? (n divisor : Nat) : Option Nat := do
  let quotient ← quotient? n divisor
  if 0 < n % divisor then natural 64 (quotient + 1) else return quotient

def difference? (n m : Nat) : Option Nat := if m ≤ n then some (n - m) else none

def bit? (place : Nat) : Option Nat := if place < 64 then some (1 <<< place) else none

theorem quotient?_eq {n divisor : Nat} (h : 0 < divisor) : quotient? n divisor = some (n / divisor) :=
  if_neg (by omega)

theorem quotientUp?_eq {n divisor : Nat} (hn : n < 1 <<< 64) (h : 0 < divisor) :
    quotientUp? n divisor = some (n ⌈/⌉ divisor) := by
  have hdecomposed := Nat.div_add_mod n divisor
  have hrest := Nat.mod_lt n h
  have hle : n / divisor ≤ n := Nat.div_le_self n divisor
  rw [quotientUp?, quotient?_eq h, Nat.ceilDiv_eq_add_pred_div, Option.bind_eq_bind, Option.bind_some]
  split
  · rename_i hpositive
    have hup : (n + divisor - 1) / divisor = n / divisor + 1 := by
      rw [Nat.div_eq_iff h, Nat.add_mul, Nat.one_mul, Nat.mul_comm (n / divisor)]
      omega
    have hsmall : n / divisor + 1 < 1 <<< 64 := by
      rcases Nat.lt_or_ge divisor 2 with hone | htwo
      · omega
      · have := Nat.mul_le_mul_right (n / divisor) htwo
        omega
    rw [hup, natural_eq_some hsmall]
  · have hexact : (n + divisor - 1) / divisor = n / divisor := by
      rw [Nat.div_eq_iff h, Nat.mul_comm (n / divisor)]
      omega
    rw [hexact]
    rfl

end Word

open Word

structure Measures where
  keySize : Nat
  valueOffset : Nat
  entrySize : Nat
  perPage : Nat
  deriving DecidableEq

def PageForm.measures (f : PageForm) : Measures := ⟨f.keySize, f.valueOffset, f.entrySize, f.perPage⟩

namespace Measures

def ofKeySize? (keySize : Nat) : Option (Except MapError Measures) := do
  let valueOffset ← natural 64 (4 + 4 + keySize)
  let entrySize ← natural 64 (valueOffset + 8)
  let perPage ← quotient? (pageSize - PageForm.headerSize) entrySize
  return if perPage = 0 then .error (.keyTooLarge keySize)
    else .ok ⟨keySize, valueOffset, entrySize, perPage⟩

def entryOffset? (m : Measures) (i : Nat) : Option Nat := do
  let offset ← natural 64 (i * m.entrySize)
  natural 64 (PageForm.headerSize + offset)

end Measures

namespace PageForm

theorem ofKeySize_error_iff {keySize : Nat} {e : MapError} :
    ofKeySize keySize = .error e ↔ 4064 < keySize ∧ e = .keyTooLarge keySize := by
  rw [ofKeySize]
  split
  · simp only [reduceCtorEq, false_iff, not_and]
    omega
  · rw [Except.error.injEq, eq_comm]
    exact ⟨fun h => ⟨by omega, h⟩, And.right⟩

theorem entrySize_eq (f : PageForm) : f.entrySize = f.keySize + 16 := by
  rw [entrySize, valueOffset]
  omega

/-- The entries fit the page, and one more would not. -/
theorem perPage_spec (f : PageForm) :
    headerSize + f.perPage * f.entrySize ≤ pageSize ∧
      pageSize < headerSize + (f.perPage + 1) * f.entrySize := by
  have hsize := f.entrySize_eq
  have hdecomposed := Nat.div_add_mod (pageSize - headerSize) f.entrySize
  have hrest := Nat.mod_lt (pageSize - headerSize) (y := f.entrySize) (by omega)
  have hpage : pageSize = 4096 := rfl
  have hheader : headerSize = 16 := rfl
  rw [Nat.mul_comm, ← perPage] at hdecomposed
  rw [Nat.add_mul, Nat.one_mul]
  omega

theorem entryOffset?_eq (f : PageForm) {i : Nat} (hi : i ≤ f.perPage) :
    f.measures.entryOffset? i = some (f.entryOffset i) ∧ f.entryOffset i ≤ pageSize := by
  have hfits := f.perPage_spec.1
  have hle := Nat.mul_le_mul_right f.entrySize hi
  have hpage : pageSize = 4096 := rfl
  have hoffset : f.entryOffset i = headerSize + i * f.entrySize := rfl
  constructor
  · have hsize : f.measures.entrySize = f.entrySize := rfl
    rw [Measures.entryOffset?, hsize, natural_eq_some (by omega), Option.bind_eq_bind, Option.bind_some,
      ← hoffset, natural_eq_some (by omega)]
  · omega

end PageForm

theorem Measures.ofKeySize?_eq {keySize : Nat} (h : keySize + 16 < 0x10000000000000000) :
    ofKeySize? keySize = some ((PageForm.ofKeySize keySize).map PageForm.measures) := by
  have hroom : pageSize - PageForm.headerSize = 4080 := rfl
  rw [ofKeySize?, natural_eq_some (by omega), Option.bind_eq_bind, Option.bind_some,
    natural_eq_some (by omega), Option.bind_some, quotient?_eq (by omega), Option.bind_some,
    PageForm.ofKeySize]
  by_cases hfits : keySize ≤ 4064
  · have hsome : (pageSize - PageForm.headerSize) / (4 + 4 + keySize + 8) ≠ 0 := by
      rw [Nat.div_ne_zero_iff]
      omega
    rw [if_neg hsome, dif_pos hfits]
    rfl
  · have hnone : (pageSize - PageForm.headerSize) / (4 + 4 + keySize + 8) = 0 :=
      Nat.div_eq_of_lt (by omega)
    rw [if_pos hnone, dif_neg hfits]
    rfl

namespace Dimensions

theorem log2_lt {minimum : Nat} (hpos : 0 < minimum) (hlt : minimum < maxBuckets) : minimum.log2 < 30 :=
  (Nat.log2_lt (Nat.pos_iff_ne_zero.mp hpos)).mpr hlt

/-- Doubling the highest bit of a number gives the power of two next above it. -/
theorem powerAbove_spec {minimum : Nat} (hpos : 0 < minimum) (hlt : minimum < maxBuckets) :
    minimum < 1 <<< (minimum.log2 + 1) ∧ 1 <<< (minimum.log2 + 1) ≤ 2 * minimum ∧
      1 <<< (minimum.log2 + 1) ≤ maxBuckets := by
  have hself := Nat.log2_self_le (Nat.pos_iff_ne_zero.mp hpos)
  rw [Nat.one_shiftLeft]
  refine ⟨Nat.lt_log2_self, ?_, ?_⟩
  · rw [Nat.pow_succ]
    omega
  · exact Nat.pow_le_pow_right (by decide) (log2_lt hpos hlt)

def powerAbove? (minimum : Nat) : Option Nat := do
  let half ← bit? (← difference? 63 (leadingZeros minimum))
  natural 64 (half * 2)

theorem powerAbove?_eq {minimum : Nat} (hpos : 0 < minimum) (hlt : minimum < maxBuckets) :
    powerAbove? minimum = some (1 <<< (minimum.log2 + 1)) := by
  have hlog := log2_lt hpos hlt
  have hmost := (powerAbove_spec hpos hlt).2.2
  have hmax : maxBuckets = 0x40000000 := rfl
  have hzeros : leadingZeros minimum = 63 - minimum.log2 := if_neg (by omega)
  have hplace : difference? 63 (leadingZeros minimum) = some minimum.log2 := by
    rw [hzeros, difference?, if_pos (by omega), Nat.sub_sub_self (by omega)]
  have hhalf : bit? minimum.log2 = some (1 <<< minimum.log2) := if_pos (by omega)
  have hdouble : 1 <<< minimum.log2 * 2 = 1 <<< (minimum.log2 + 1) := by
    rw [Nat.one_shiftLeft, Nat.one_shiftLeft, Nat.pow_succ]
  rw [powerAbove?, hplace, Option.bind_eq_bind, Option.bind_some, hhalf, Option.bind_some, hdouble,
    natural_eq_some (by omega)]

def buckets? (perPage : Nat) (mapSize : UInt64) : Option (Except MapError (Nat × Nat)) :=
  if mapSize = 0 then some (.error (.invalidMapSize mapSize))
  else match natural 64 (mapSize.toNat * slotsPerEntry) with
    -- The product is checked: its overflow is refused, not trapped.
    | none => some (.error (.invalidMapSize mapSize))
    | some slots => do
      let minimum ← quotientUp? slots perPage
      if minimum < maxBuckets then
        let buckets ← powerAbove? minimum
        return if buckets < 1 <<< 32 then .ok (minimum, buckets) else .error (.invalidMapSize mapSize)
      else return .error (.invalidMapSize mapSize)

theorem ceilDiv_eq (f : PageForm) (slots : Nat) :
    (slots + (f.perPage - 1)) / f.perPage = slots ⌈/⌉ f.perPage := by
  rw [Nat.ceilDiv_eq_add_pred_div, Nat.add_sub_assoc f.perPage_pos]

theorem ceilDiv_pos (f : PageForm) {slots : Nat} (h : 0 < slots) : 0 < slots ⌈/⌉ f.perPage := by
  rw [Nat.pos_iff_ne_zero, Ne, ← Nat.le_zero, ceilDiv_le_iff_le_mul f.perPage_pos]
  omega

def Unsuited (f : PageForm) (mapSize : UInt64) : Prop :=
  mapSize = 0 ∨ 0x10000000000000000 ≤ 2 * mapSize.toNat ∨ maxBuckets ≤ (2 * mapSize.toNat) ⌈/⌉ f.perPage

structure Suited (d : Dimensions) (mapSize : UInt64) : Prop where
  expected : d.mapSize = mapSize
  minimum : d.minimum = (2 * mapSize.toNat) ⌈/⌉ d.form.perPage
  buckets : ∃ k, d.buckets = 2 ^ k
  minimum_lt : d.minimum < d.buckets
  buckets_le_twice : d.buckets ≤ 2 * d.minimum
  buckets_le : d.buckets ≤ maxBuckets
  /-- With all its entries the map is at most half full. -/
  half : 2 * mapSize.toNat ≤ d.buckets * d.form.perPage

variable {f : PageForm} {mapSize : UInt64} {d : Dimensions}

theorem ofMapSize_of_unsuited (h : Unsuited f mapSize) :
    ofMapSize f mapSize = .error (.invalidMapSize mapSize) := by
  simp only [ofMapSize, ceilDiv_eq, Nat.mul_comm mapSize.toNat]
  exact if_pos h

theorem ofMapSize_of_not_unsuited (h : ¬Unsuited f mapSize) :
    let minimum := (2 * mapSize.toNat) ⌈/⌉ f.perPage
    0 < minimum ∧ minimum < maxBuckets ∧
      ofMapSize f mapSize = .ok ⟨mapSize, f, minimum, 1 <<< (minimum.log2 + 1)⟩ := by
  have hpos : 0 < mapSize.toNat := Nat.pos_of_ne_zero fun hzero => h (.inl (UInt64.toNat_inj.mp hzero))
  refine ⟨ceilDiv_pos f (by omega), Nat.lt_of_not_le fun hmany => h (.inr (.inr hmany)), ?_⟩
  simp only [ofMapSize, ceilDiv_eq, Nat.mul_comm mapSize.toNat]
  exact if_neg h

theorem ofMapSize_error_iff {e : MapError} :
    ofMapSize f mapSize = .error e ↔ Unsuited f mapSize ∧ e = .invalidMapSize mapSize := by
  by_cases h : Unsuited f mapSize
  · rw [ofMapSize_of_unsuited h, Except.error.injEq, eq_comm]
    exact ⟨fun he => ⟨h, he⟩, And.right⟩
  · rw [(ofMapSize_of_not_unsuited h).2.2]
    exact ⟨nofun, fun hu => absurd hu.1 h⟩

theorem suited_of_ofMapSize (h : ofMapSize f mapSize = .ok d) : d.form = f ∧ d.Suited mapSize := by
  by_cases hu : Unsuited f mapSize
  · rw [ofMapSize_of_unsuited hu] at h
    cases h
  · obtain ⟨hpos, hfew, hd⟩ := ofMapSize_of_not_unsuited hu
    obtain ⟨habove, htwice, hmost⟩ := powerAbove_spec hpos hfew
    rw [hd] at h
    cases h
    have hfits := (ceilDiv_le_iff_le_mul f.perPage_pos).mp (Nat.le_of_lt habove)
    rw [Nat.mul_comm f.perPage] at hfits
    exact ⟨rfl, rfl, rfl, ⟨_, Nat.one_shiftLeft _⟩, habove, htwice, hmost, hfits⟩

theorem buckets?_eq (f : PageForm) (mapSize : UInt64) :
    buckets? f.perPage mapSize = some ((ofMapSize f mapSize).map fun d => (d.minimum, d.buckets)) := by
  have hmax : maxBuckets = 0x40000000 := rfl
  have hslots : mapSize.toNat * slotsPerEntry = 2 * mapSize.toNat := Nat.mul_comm ..
  rw [buckets?, hslots]
  by_cases hlarge : 0x10000000000000000 ≤ 2 * mapSize.toNat
  · have hnone : natural 64 (2 * mapSize.toNat) = none := if_neg (by omega)
    rw [hnone, ofMapSize_of_unsuited (.inr (.inl hlarge))]
    exact ite_self _
  · have hsmall : 2 * mapSize.toNat < 1 <<< 64 := by omega
    simp only [natural_eq_some hsmall, quotientUp?_eq hsmall f.perPage_pos, Option.bind_eq_bind,
      Option.bind_some]
    by_cases hu : Unsuited f mapSize
    · rw [ofMapSize_of_unsuited hu]
      rcases hu with hzero | hover | hmany
      · exact if_pos hzero
      · exact absurd hover hlarge
      · rw [if_neg (Nat.not_lt.mpr hmany)]
        exact ite_self _
    · obtain ⟨hpos, hfew, hd⟩ := ofMapSize_of_not_unsuited hu
      have hmost := (powerAbove_spec hpos hfew).2.2
      rw [if_neg fun hzero => hu (.inl hzero), if_pos hfew, powerAbove?_eq hpos hfew, Option.bind_some,
        if_pos (by omega), hd]
      rfl

end Dimensions

namespace PagedMap

variable {K : Type} [FixedKey K] {directory : Path} {name : String} {mapSize : UInt64}
  {archive : Archive} {host : Host}

def dimensions? (keySize : Nat) (mapSize : UInt64) : Option (Except MapError (Measures × Nat × Nat)) := do
  match ← Measures.ofKeySize? keySize with
  | .error e => return .error e
  | .ok measures => return (← Dimensions.buckets? measures.perPage mapSize).map (Prod.mk measures)

theorem dimensions?_eq (h : FixedKey.size K + 16 < 0x10000000000000000) :
    dimensions? (FixedKey.size K) mapSize =
      some ((dimensionsFor K mapSize).map fun d => (d.form.measures, d.minimum, d.buckets)) := by
  rw [dimensions?, Measures.ofKeySize?_eq h, dimensionsFor, Option.bind_eq_bind, Option.bind_some]
  cases PageForm.ofKeySize (FixedKey.size K) with
  | error e => rfl
  | ok f =>
      have hperPage : f.measures.perPage = f.perPage := rfl
      simp only [Except.map, hperPage, Dimensions.buckets?_eq, Option.bind_some, bind, Except.bind]
      cases hd : Dimensions.ofMapSize f mapSize with
      | error e => rfl
      | ok d =>
          rw [← (Dimensions.suited_of_ofMapSize hd).1]
          rfl

theorem dimensionsFor_error_iff {e : MapError} :
    dimensionsFor K mapSize = .error e ↔
      4064 < FixedKey.size K ∧ e = .keyTooLarge (FixedKey.size K) ∨
        ∃ f, PageForm.ofKeySize (FixedKey.size K) = .ok f ∧ Dimensions.Unsuited f mapSize ∧
          e = .invalidMapSize mapSize := by
  rw [dimensionsFor, ← PageForm.ofKeySize_error_iff]
  cases PageForm.ofKeySize (FixedKey.size K) with
  | error e' => simp [bind, Except.bind]
  | ok f => simp [bind, Except.bind, Dimensions.ofMapSize_error_iff]

theorem of_ofArchive {host' : Host} {m : PagedMap K}
    (h : ofArchive K directory name mapSize archive host = (.ok m, host')) :
    dimensionsFor K mapSize = .ok m.dimensions ∧ m.busy = false ∧ m.changes = none := by
  obtain ⟨d, t, hd, h⟩ := Task.of_bind_ok h
  obtain ⟨-, t, -, h⟩ := Task.of_bind_ok h
  obtain ⟨host, t, -, h⟩ := Task.of_bind_ok h
  obtain ⟨-, t, -, h⟩ := Task.of_bind_ok h
  have hopened : m.dimensions = d ∧ m.busy = false ∧ m.changes = none := by
    dsimp only at h
    split at h
    · obtain ⟨-, t, -, h⟩ := Task.of_bind_ok h
      obtain ⟨-, t, -, h⟩ := Task.of_bind_ok h
      cases h
      exact ⟨rfl, rfl, rfl⟩
    · obtain ⟨-, t, -, h⟩ := Task.of_bind_ok h
      cases h
      exact ⟨rfl, rfl, rfl⟩
  refine ⟨?_, hopened.2⟩
  rw [hopened.1]
  cases hsize : dimensionsFor K mapSize with
  | error e =>
      rw [hsize] at hd
      cases hd
  | ok d' =>
      rw [hsize] at hd
      cases hd
      rfl

/-- Behind the dimensions only the disk and the archive can refuse. -/
theorem ofArchive_abides :
    Task.Abides (fun _ => True)
      (fun e => dimensionsFor K mapSize = .error e ∨ (∃ e', e = .disk e') ∨ ∃ e', e = .archive e')
      (ofArchive K directory name mapSize archive) := by
  refine .then (.ofExcept fun e he => .inl he) fun d => ?_
  refine .then ?_ fun _ => .get fun h => ?_
  · exact .zoom (Task.Abides.any _) (fun _ _ => trivial) (fun _ _ _ _ _ => trivial)
      fun _ e _ _ _ => ⟨trivial, .inr (.inl ⟨e, rfl⟩)⟩
  refine .then (.ofExcept fun e _ => .inr (.inr ⟨e, rfl⟩)) fun _ => ?_
  dsimp only
  split
  · exact fun _ _ => trivial
  · exact fun _ _ => trivial

/-- A refusal that blames neither the disk nor the archive blames the dimensions. -/
theorem ofArchive_error_iff {e : MapError} (hdisk : ∀ e', e ≠ .disk e') (harchive : ∀ e', e ≠ .archive e') :
    (ofArchive K directory name mapSize archive host).1 = .error e ↔ dimensionsFor K mapSize = .error e := by
  constructor
  · intro he
    rcases ofArchive_abides.run trivial (Prod.ext he rfl) with ⟨a, ha, -⟩ | ⟨e', he', -, hcause⟩
    · cases ha
    · cases he'
      rcases hcause with hd | ⟨e', rfl⟩ | ⟨e', rfl⟩
      · exact hd
      · exact absurd rfl (hdisk e')
      · exact absurd rfl (harchive e')
  · intro hd
    rw [ofArchive, hd]
    rfl

theorem keyTooLarge_iff (n : Nat) :
    (ofArchive K directory name mapSize archive host).1 = .error (.keyTooLarge n) ↔
      4064 < FixedKey.size K ∧ n = FixedKey.size K := by
  rw [ofArchive_error_iff (by simp) (by simp), dimensionsFor_error_iff]
  simp

theorem invalidMapSize_iff {f : PageForm} (hf : PageForm.ofKeySize (FixedKey.size K) = .ok f) (n : UInt64) :
    (ofArchive K directory name mapSize archive host).1 = .error (.invalidMapSize n) ↔
      Dimensions.Unsuited f mapSize ∧ n = mapSize := by
  rw [ofArchive_error_iff (by simp) (by simp), dimensionsFor_error_iff]
  simp [hf]

theorem suited_of_ofArchive {f : PageForm} (hf : PageForm.ofKeySize (FixedKey.size K) = .ok f)
    {m : PagedMap K} (h : (ofArchive K directory name mapSize archive host).1 = .ok m) :
    m.dimensions.form = f ∧ m.dimensions.Suited mapSize := by
  obtain ⟨hd, -⟩ := of_ofArchive (Prod.ext h rfl)
  rw [dimensionsFor, hf] at hd
  exact Dimensions.suited_of_ofMapSize hd

/--
A map with keys of any size that a type can have, for any number of entries, over any archive. Keys of
more than 4064 bytes are refused; for others the entries fill the page as far as they can. Then the map is
refused exactly for no entries, for more than a word can double, and if it took 2³⁰ buckets or more to have
twice as many slots as entries. Otherwise the buckets are a power of two above that least number, at most
twice as many and at most 2³⁰. The words that this is computed in, with the places of entries, do not trap.
-/
theorem dimensions_spec (K : Type) [FixedKey K] (hsize : FixedKey.size K + 16 < 0x10000000000000000)
    (mapSize : UInt64) (directory : Path) (name : String) (archive : Archive) (host : Host) :
    let size := FixedKey.size K
    let opened := (ofArchive K directory name mapSize archive host).1
    (∀ n, opened = .error (.keyTooLarge n) ↔ 4064 < size ∧ n = size) ∧
      (size ≤ 4064 → ∃ f, PageForm.ofKeySize size = .ok f ∧ f.keySize = size ∧
        PageForm.headerSize + f.perPage * f.entrySize ≤ pageSize ∧
        pageSize < PageForm.headerSize + (f.perPage + 1) * f.entrySize ∧
        (∀ n, opened = .error (.invalidMapSize n) ↔
          (mapSize = 0 ∨ 0x10000000000000000 ≤ 2 * mapSize.toNat ∨
            0x40000000 ≤ (2 * mapSize.toNat) ⌈/⌉ f.perPage) ∧ n = mapSize) ∧
        (∀ m, opened = .ok m → m.dimensions.form = f ∧ m.dimensions.Suited mapSize) ∧
        ∀ i ≤ f.perPage, f.measures.entryOffset? i = some (f.entryOffset i) ∧ f.entryOffset i ≤ pageSize) ∧
      dimensions? size mapSize =
        some ((dimensionsFor K mapSize).map fun d => (d.form.measures, d.minimum, d.buckets)) := by
  intro size opened
  refine ⟨keyTooLarge_iff, fun hfits => ?_, dimensions?_eq hsize⟩
  have hf : PageForm.ofKeySize size = .ok ⟨size, hfits⟩ := dif_pos hfits
  have hperPage := PageForm.perPage_spec ⟨size, hfits⟩
  exact ⟨_, hf, rfl, hperPage.1, hperPage.2, invalidMapSize_iff hf, fun m => suited_of_ofArchive hf,
    fun i => PageForm.entryOffset?_eq _⟩

/-- Words as keys: ten thousand entries need 118 pages of 170 and get 128, the largest word is refused. -/
theorem dimensions_spec_words :
    let archive : Archive := ⟨[], "map_files", [], none, 0, ⟨0, 0, 0, 0⟩⟩
    let host : Host := { clock := 0 }
    FixedKey.size UInt64 + 16 < 0x10000000000000000 ∧
      (∃ m, (ofArchive UInt64 [] "map" 10000 archive host).1 = .ok m ∧ m.dimensions.form.perPage = 170 ∧
        m.dimensions.minimum = 118 ∧ m.dimensions.buckets = 128 ∧ m.dimensions.Suited 10000) ∧
      (ofArchive UInt64 [] "map" 0xFFFFFFFFFFFFFFFF archive host).1 =
        .error (.invalidMapSize 0xFFFFFFFFFFFFFFFF) := by
  intro archive host
  have hsize : FixedKey.size UInt64 + 16 < 0x10000000000000000 := by decide
  obtain ⟨-, hlayout, -⟩ := dimensions_spec UInt64 hsize 10000 [] "map" archive host
  obtain ⟨f, -, -, -, -, -, hopened, -⟩ := hlayout (by decide)
  have hrun : ∃ m, (ofArchive UInt64 [] "map" 10000 archive host).1 = .ok m ∧
      m.dimensions.form.perPage = 170 ∧ m.dimensions.minimum = 118 ∧ m.dimensions.buckets = 128 :=
    ⟨_, rfl, by decide +kernel⟩
  obtain ⟨m, hm, hperPage, hminimum, hbuckets⟩ := hrun
  obtain ⟨-, hlayout, -⟩ := dimensions_spec UInt64 hsize 0xFFFFFFFFFFFFFFFF [] "map" archive host
  obtain ⟨f', -, -, -, -, hrefused, -⟩ := hlayout (by decide)
  exact ⟨hsize, ⟨m, hm, hperPage, hminimum, hbuckets, (hopened m hm).2⟩,
    (hrefused _).mpr ⟨.inr (.inl (by decide)), rfl⟩⟩

end PagedMap

end MeteredStorage
