import MeteredStorage.Proofs.PagedMap.Sequence

namespace MeteredStorage

inductive FlushStatus (K : Type)
  | waiting
  | running (flush : Flush K)
  | finished (result : Except MapError Unit)

inductive MergeStatus
  | waiting
  | chosen (files : List Segment)
  | running (merge : MapMerge)
  | finished (result : Except MapError Nat)

namespace Progress

variable {σ ρ : Type} {p : σ → Prop} {x : σ}

theorem forall_running (h : p x) : ∀ y, (running x : Progress σ ρ) = running y → p y := by
  intro y he
  cases he
  exact h

theorem forall_done (r : ρ) : ∀ y, (done r : Progress σ ρ) = running y → p y := by
  intro y he
  cases he

end Progress

variable {K : Type}

namespace FlushStatus

def ofProgress : Progress (Flush K) (Except MapError Unit) → FlushStatus K
  | .running f => running f
  | .done r => finished r

def active : FlushStatus K → Bool
  | waiting => false
  | running _ => true
  | finished _ => false

def wants : FlushStatus K → Nat
  | waiting => 1
  | running f => f.wants
  | finished _ => 0

theorem running_of_ofProgress {p : Progress (Flush K) (Except MapError Unit)} {f : Flush K}
    (h : ofProgress p = running f) : p = .running f := by
  cases p with
  | running f' =>
      cases h
      rfl
  | done r => cases h

theorem wants_of_step [FixedKey K] {f : Flush K} {s s' : MapState K}
    {p : Progress (Flush K) (Except MapError Unit)} (h : f.step s = (p, s')) :
    (ofProgress p).wants = 0 := by
  cases p with
  | running f' => exact Flush.wants_step h
  | done r => rfl

end FlushStatus

namespace MergeStatus

def ofProgress : Progress MapMerge (Except MapError Nat) → MergeStatus
  | .running m => running m
  | .done r => finished r

def active : MergeStatus → Bool
  | waiting => false
  | chosen _ => true
  | running _ => true
  | finished _ => false

def settled : MergeStatus → Bool
  | waiting => false
  | chosen _ => false
  | running m => m.settled
  | finished _ => true

def wants : MergeStatus → Nat
  | waiting => 1
  | chosen _ => 1
  | running _ => 0
  | finished _ => 0

theorem running_of_ofProgress {p : Progress MapMerge (Except MapError Nat)} {m : MapMerge}
    (h : ofProgress p = running m) : p = .running m := by
  cases p with
  | running m' =>
      cases h
      rfl
  | done r => cases h

@[simp] theorem wants_ofProgress (p : Progress MapMerge (Except MapError Nat)) :
    (ofProgress p).wants = 0 := by
  cases p <;> rfl

end MergeStatus

structure System (K : Type) where
  map : MapState K
  writer : FlushStatus K
  merge : MergeStatus
  gets : List (Get K)

/-- Whose turn it is: the gets are numbered in the order in which they started. -/
inductive Turn (K : Type)
  | write
  | merge (limit : UInt64)
  | get (key : K) (notFound : Int64)
  | advance (get : Nat)
  | wait (clock : UInt64)

namespace System

def start (s : MapState K) : System K := ⟨s, .waiting, .waiting, []⟩

def became (sys : System K) (map : MapState K) (writer : FlushStatus K) (merge : MergeStatus) :
    System K :=
  ⟨map, writer, merge, sys.gets.map (Get.saw map merge.active)⟩

variable [FixedKey K]

def step (sys : System K) : Turn K → System K
  | .write =>
    match sys.writer with
    | .waiting =>
      let (p, map) := Flush.start sys.map
      sys.became map (.ofProgress p) sys.merge
    | .running f =>
      let (p, map) := f.step sys.map
      sys.became map (.ofProgress p) sys.merge
    | .finished _ => sys
  | .merge limit =>
    match sys.merge with
    | .waiting =>
      let files := sys.map.self.archive.oldest limit
      if files.length < 2 then sys.became sys.map sys.writer (.finished (.ok 0))
      else sys.became (sys.map.report (.mapMergeStarted sys.map.self.name files.length)) sys.writer
        (.chosen files)
    | .chosen files =>
      let (p, map) := MapMerge.prepare files sys.map
      sys.became map sys.writer (.ofProgress p)
    | .running m =>
      let (p, map) := m.step sys.map
      sys.became map sys.writer (.ofProgress p)
    | .finished _ => sys
  | .get key notFound =>
    let (g, map) := Get.start key notFound sys.merge.active sys.map
    let sys := sys.became map sys.writer sys.merge
    { sys with gets := sys.gets ++ [g] }
  | .advance i =>
    match sys.gets[i]? with
    | none => sys
    | some g =>
      let (g, map) := g.advance sys.map
      { sys with gets := sys.gets.set i g }.became map sys.writer sys.merge
  | .wait clock =>
    sys.became { sys.map with host := { sys.map.host with clock := clock } } sys.writer sys.merge

def run (sys : System K) (turns : List (Turn K)) : System K := turns.foldl step sys

end System

variable [FixedKey K] [DecidableEq K]

inductive Flushes (origin : MapState K) (base : Versions K) (s : MapState K) (k : Stock)
    (versions : Versions K) : FlushStatus K → Prop
  | waiting (hc : k.current = none) (hv : versions = base)
      (hs : s.self.changes = origin.self.changes)
      (hn : s.self.counts.written = origin.self.counts.written) :
      Flushes origin base s k versions .waiting
  | running {f : Flush K} {past : ChangeSet K} (hs : s.self.changes = none)
      (hw : Writing base (origin.self.changes.getD []) origin.self.counts.written s k versions past f) :
      Flushes origin base s k versions (.running f)
  | finished {r : Except MapError Unit} {past : ChangeSet K} (hs : s.self.changes = none)
      (hw : Written base (origin.self.changes.getD []) origin.self.counts.written s k versions past r) :
      Flushes origin base s k versions (.finished r)

inductive Merges (k : Stock) : MergeStatus → Prop
  | waiting (ho : k.old = []) (hm : k.moves = []) : Merges k .waiting
  | chosen {files : List Segment} (ho : k.old = []) (hm : k.moves = []) (hf : Chosen k.line files) :
      Merges k (.chosen files)
  | running {m : MapMerge} (h : Moving k m) : Merges k (.running m)
  | finished {r : Except MapError Nat} (ho : k.old = []) (hm : k.moves = []) : Merges k (.finished r)

structure Works (origin : MapState K) (base : Versions K) (sys : System K) (k : Stock)
    (versions : Versions K) : Prop where
  indexed : Indexed sys.map k versions
  remains : Remains origin sys.map
  writer : Flushes origin base sys.map k versions sys.writer
  merge : Merges k sys.merge
  gets : ∀ g ∈ sys.gets, Gets sys.map k sys.merge.settled g
  overlapped : sys.merge.active = true → ∀ g ∈ sys.gets, ∀ l, g.stage = .reading l →
    g.overlapped = true
  room : sys.map.self.archive.nextIndex.toNat + sys.writer.wants + sys.merge.wants < 0x100000000

variable {origin s s' : MapState K} {base versions versions' : Versions K} {sys : System K}
  {k k' : Stock} {line : List Volume}

theorem Idle.works (h : Idle origin line base)
    (hroom : origin.self.archive.nextIndex.toNat + 2 < 0x100000000) :
    Works origin base (.start origin) ⟨line, [], none, [], none, []⟩ base where
  indexed := h.indexed
  remains := Remains.refl origin
  writer := .waiting rfl rfl rfl rfl
  merge := .waiting rfl rfl
  gets := by simp [System.start]
  overlapped := by simp [System.start]
  room := hroom

theorem Merges.congr {merge : MergeStatus} (h : Merges k merge) (ho : k'.old = k.old)
    (hm : k'.moves = k.moves) (hl : k.line <+: k'.line) : Merges k' merge := by
  cases h with
  | waiting h1 h2 => exact .waiting (ho.trans h1) (hm.trans h2)
  | chosen h1 h2 h3 => exact .chosen (ho.trans h1) (hm.trans h2) (h3.mono hl)
  | running h =>
      refine .running ?_
      cases h with
      | publishing h1 h2 => exact .publishing (hm ▸ h1) (ho ▸ h2)
      | removing h1 h2 => exact .removing (ho ▸ h1) (hm.trans h2)
  | finished h1 h2 => exact .finished (ho.trans h1) (hm.trans h2)

theorem Merges.of_moves {p : Progress MapMerge (Except MapError Nat)} (h : Moves k p) :
    Merges k (.ofProgress p) := by
  cases h with
  | running h => exact .running h
  | done ho hm => exact .finished ho hm

theorem Merges.moves_of_settled {merge : MergeStatus} (h : Merges k merge)
    (hs : merge.settled = true) : k.moves = [] := by
  cases h with
  | waiting _ hm => exact hm
  | chosen _ hm _ => exact hm
  | finished _ hm => exact hm
  | @running m h =>
      cases h with
      | publishing h1 h2 =>
          rw [MergeStatus.settled, MapMerge.settled, h1] at hs
          cases hs
      | removing _ hm => exact hm

theorem Merges.over {merge : MergeStatus} (h : Merges k merge)
    (hs : merge.active = false) : k.old = [] ∧ k.moves = [] := by
  cases h with
  | waiting ho hm => exact ⟨ho, hm⟩
  | finished ho hm => exact ⟨ho, hm⟩
  | chosen => cases hs
  | running => cases hs

theorem Flushes.over {writer : FlushStatus K} (h : Flushes origin base s k versions writer)
    (hw : writer.active = false) :
    k.current = none ∧ (s.self.changes = origin.self.changes ∨ s.self.changes = none) := by
  cases h with
  | waiting hc _ hs => exact ⟨hc, .inl hs⟩
  | running => cases hw
  | finished hs hdone => exact ⟨hdone.idle, .inr hs⟩

theorem Flushes.carried {writer : FlushStatus K} {used : Nat}
    (hf : Flushes origin base s k versions writer) (h : Indexed s k versions)
    (hc : Carries 0 used s k s' k' versions) (hcurrent : k'.current = k.current)
    (hfresh : k'.fresh = k.fresh) : Flushes origin base s' k' versions writer := by
  cases hf with
  | waiting hnone hv hs hn =>
      exact .waiting (hcurrent.trans hnone) hv (hc.kin.changes.trans hs) (hc.kin.counted.trans hn)
  | running hs hw =>
      exact .running (hc.kin.changes.trans hs) (hw.carried h hc hcurrent hfresh)
  | finished hs hw =>
      exact .finished (hc.kin.changes.trans hs) ⟨hw.versions_eq, hc.kin.counted.trans hw.counted_eq,
        hcurrent.trans hw.idle, hw.part, hw.whole⟩

namespace Works

theorem became (h : Works origin base sys k versions) {writer : FlushStatus K} {merge : MergeStatus}
    (hindexed : Indexed s' k' versions') (hr : Remains sys.map s')
    (he : Archive.Evolves sys.map.self.archive k.volumes s'.self.archive k'.volumes)
    (hwriter : Flushes origin base s' k' versions' writer) (hmerge : Merges k' merge)
    (hsettled : merge.settled = false → sys.merge.settled = false ∧
      Volume.allEntries k.volumes ⊆ Volume.allEntries k'.volumes)
    (hlasts : ∀ g ∈ sys.gets, ∀ l, g.stage = .reading l →
      (g.overlapped || merge.active) = false ∨ 0 < g.retries →
        Volume.allEntries k.lasting ⊆ Volume.allEntries k'.lasting)
    (hroom : s'.self.archive.nextIndex.toNat + writer.wants + merge.wants < 0x100000000) :
    Works origin base (sys.became s' writer merge) k' versions' where
  indexed := hindexed
  remains := h.remains.trans hr
  writer := hwriter
  merge := hmerge
  gets := by
    intro g' hg'
    obtain ⟨g, hg, rfl⟩ := List.mem_map.mp hg'
    exact (h.gets g hg).carried h.indexed hr.dimensions he hsettled (hlasts g hg)
  overlapped := by
    intro hactive g' hg' l hs
    obtain ⟨g, -, rfl⟩ := List.mem_map.mp hg'
    obtain ⟨key, notFound, stage, window, retries, overlapped⟩ := g
    cases stage with
    | reading l' =>
        have hm : merge.active = true := hactive
        simp [Get.saw, hm]
    | missed l' index => cases hs
    | returned r => cases hs
  room := hroom

theorem spared (h : Works origin base sys k versions) {writer : FlushStatus K} {merge : MergeStatus}
    {written used : Nat} (hs : Spares written used sys.map k s' k' versions')
    (hwriter : Flushes origin base s' k' versions' writer) (hmerge : Merges k' merge)
    (hsettled : merge.settled = false → sys.merge.settled = false ∧ k'.old = k.old)
    (hwants : used + writer.wants + merge.wants ≤ sys.writer.wants + sys.merge.wants) :
    Works origin base (sys.became s' writer merge) k' versions' := by
  refine h.became hs.indexed hs.kin.remains hs.evolves hwriter hmerge (fun hf => ?_)
    (fun _ _ _ _ _ => hs.lasts) ?_
  · obtain ⟨hold, hsame⟩ := hsettled hf
    refine ⟨hold, ?_⟩
    have hsplit (k : Stock) : Volume.allEntries k.volumes =
        Volume.allEntries k.lasting ++ Volume.allEntries k.old := by
      rw [Stock.volumes, Stock.lasting, ← List.append_assoc, Volume.allEntries_append]
    rw [hsplit, hsplit, hsame]
    intro e he
    rcases List.mem_append.mp he with he | he
    · exact List.mem_append_left _ (hs.lasts he)
    · exact List.mem_append_right _ he
  · have hr := h.room
    rw [hs.kin.follows.nextIndex]
    omega

theorem alike (h : Works origin base sys k versions) (ha : Alike sys.map s') :
    Works origin base (sys.became s' sys.writer sys.merge) k versions := by
  have hs := h.indexed.alike ha
  exact h.spared hs (h.writer.carried h.indexed hs.toCarries rfl rfl) h.merge
    (fun hf => ⟨hf, rfl⟩) (by omega)

theorem taken (h : Works origin base sys k versions) {t : MapState K} {writer : FlushStatus K}
    (ht : Takes sys.map t) (hwriter : Flushes origin base t k versions writer)
    (hwants : writer.wants ≤ sys.writer.wants) :
    Works origin base (sys.became t writer sys.merge) k versions := by
  have hindexed : Indexed t k versions :=
    h.indexed.congr ht.remains.dimensions ht.archive ht.table (by rw [ht.host])
  refine h.became hindexed ht.remains (.of_perm ?_ (List.Perm.refl _)) hwriter h.merge
    (fun hf => ⟨hf, fun _ he => he⟩) (fun _ _ _ _ _ _ he => he) ?_
  · exact Nat.le_of_eq (by rw [ht.archive])
  · have hr := h.room
    rw [ht.archive]
    omega

theorem step_write [LawfulKey K] (h : Works origin base sys k versions)
    (hc : ∀ changes, origin.self.changes = some changes → Collected origin.self.dimensions changes) :
    ∃ k' versions', Works origin base (sys.step .write) k' versions' := by
  cases hwriter : sys.writer with
  | waiting =>
      have hw := h.writer
      rw [hwriter] at hw
      have hwants : 1 = sys.writer.wants := by rw [hwriter]; rfl
      cases hw with
      | waiting hcurrent hv hs hn =>
          have hsession : sys.step .write = sys.became (Flush.start sys.map).2
              (.ofProgress (Flush.start sys.map).1) sys.merge := by
            simp only [System.step, hwriter]
          rw [hsession]
          obtain ⟨t, ht, ⟨r, hstart, hnone⟩ | ⟨changes, hchanges, hstart⟩⟩ := Flush.start_cases sys.map
          · have hdone : Written base (origin.self.changes.getD []) origin.self.counts.written t k
                versions [] r :=
              ⟨hv, ht.counts ▸ hn, hcurrent, List.nil_prefix, fun _ => by rw [← hs, hnone]⟩
            simp only [hstart]
            exact ⟨k, versions, h.taken ht (.finished ht.changes hdone) (Nat.zero_le _)⟩
          · have horigin := hs.symm.trans hchanges
            have hcollected : Collected t.self.dimensions changes := by
              rw [ht.remains.dimensions, h.remains.dimensions]
              exact hc _ horigin
            have htaken : Writing base (origin.self.changes.getD []) origin.self.counts.written t k
                versions [] ⟨changes, changes.length, Bytes.zeros pageSize, .opening⟩ := by
              rw [horigin]
              exact ⟨hv, ht.counts ▸ hn, Bytes.length_zeros _, hcollected, .opening hcurrent rfl⟩
            simp only [hstart]
            exact ⟨k, versions, h.taken ht (.running ht.changes htaken) (Nat.le_of_eq hwants)⟩
  | running f =>
      have hw := h.writer
      rw [hwriter] at hw
      have hroom := h.room
      rw [hwriter] at hroom
      cases hw with
      | running hs hw =>
          obtain ⟨p, s', hgo, ⟨k', versions', past', written, hspares, hold, hmoves, hline, -, hwrites⟩,
            -⟩ := hw.step h.indexed (Nat.lt_of_le_of_lt (Nat.le_add_right _ _) hroom)
          have hstep : sys.step .write = sys.became s' (.ofProgress p) sys.merge := by
            simp only [System.step, hwriter, hgo]
          rw [hstep]
          refine ⟨k', versions', h.spared hspares ?_ (h.merge.congr hold hmoves hline)
            (fun hf => ⟨hf, hold⟩) ?_⟩
          · cases hwrites with
            | running hw' => exact .running (hspares.kin.changes.trans hs) hw'
            | done hw' => exact .finished (hspares.kin.changes.trans hs) hw'
          · rw [hwriter, FlushStatus.wants_of_step hgo]
            exact Nat.le_refl _
  | finished r =>
      have hstep : sys.step .write = sys := by
        simp only [System.step, hwriter]
      rw [hstep]
      exact ⟨k, versions, h⟩

/-- A merge that has not begun chooses its files, or it is over at once. -/
theorem step_choose (h : Works origin base sys k versions) (hmerge : sys.merge = .waiting)
    (limit : UInt64) : Works origin base (sys.step (.merge limit)) k versions := by
  have hm := h.merge
  rw [hmerge] at hm
  cases hm with
  | waiting hold hmoves =>
      by_cases hfew : (sys.map.self.archive.oldest limit).length < 2
      · have hsame := h.indexed.alike (.refl sys.map)
        have hstep : sys.step (.merge limit) =
            sys.became sys.map sys.writer (.finished (.ok 0)) := by
          simp only [System.step, hmerge, if_pos hfew]
        rw [hstep]
        refine h.spared hsame (h.writer.carried h.indexed hsame.toCarries rfl rfl)
          (.finished hold hmoves) nofun ?_
        simp only [MergeStatus.wants]
        omega
      · let s' := sys.map.report (.mapMergeStarted sys.map.self.name
          (sys.map.self.archive.oldest limit).length)
        have hstep : sys.step (.merge limit) =
            sys.became s' sys.writer (.chosen (sys.map.self.archive.oldest limit)) := by
          simp only [System.step, hmerge, if_neg hfew]
          rfl
        have hspares : Spares 0 0 sys.map k s' k versions := h.indexed.alike (.report sys.map _)
        rw [hstep]
        refine h.spared hspares (h.writer.carried h.indexed hspares.toCarries rfl rfl)
          (.chosen hold hmoves (h.indexed.chosen hold hfew)) (fun _ => ⟨by rw [hmerge]; rfl, rfl⟩) ?_
        rw [hmerge]
        simp only [MergeStatus.wants]
        omega

theorem step_merge (h : Works origin base sys k versions) (limit : UInt64) :
    ∃ k', Works origin base (sys.step (.merge limit)) k' versions := by
  have hm := h.merge
  have hroom := h.room
  cases hmerge : sys.merge with
  | waiting => exact ⟨k, h.step_choose hmerge limit⟩
  | chosen files =>
      rw [hmerge] at hm hroom
      cases hm with
      | chosen hold hmoves hfiles =>
          obtain ⟨p, s', k', hgo, hbrings, hsame, hkeeps, hcurrent, hfresh, hp, -⟩ :=
            h.indexed.prepare_run hold hmoves (by
              simp only [MergeStatus.wants] at hroom
              omega) hfiles
          have hcarries := h.indexed.carries hbrings hsame.resembles
          have hstep : sys.step (.merge limit) = sys.became s' sys.writer (.ofProgress p) := by
            simp only [System.step, hmerge, hgo]
          have hunsettled : sys.merge.settled = false := by
            rw [hmerge]
            rfl
          rw [hstep]
          refine ⟨k', h.became hcarries.indexed hcarries.kin.remains hcarries.evolves
            (h.writer.carried h.indexed hcarries hcurrent hfresh) (.of_moves hp)
            (fun _ => ⟨hunsettled, hkeeps⟩) (fun g hg l hs ho => ?_) ?_⟩
          · -- A get that is about to read has met this merge already, and not the end of it.
            exfalso
            have hover := h.overlapped (by rw [hmerge]; rfl) g hg l hs
            rcases ho with ho | ho
            · rw [hover] at ho
              cases ho
            · cases h.gets g hg with
              | reading hs' hr =>
                  rw [hr.first hunsettled] at ho
                  exact absurd ho (Nat.lt_irrefl 0)
              | missed hs' hm => rw [hs] at hs'; cases hs'
              | returned hs' _ => rw [hs] at hs'; cases hs'
          · rw [hcarries.kin.follows.nextIndex]
            rw [MergeStatus.wants_ofProgress]
            simp only [MergeStatus.wants] at hroom
            omega
  | running m =>
      rw [hmerge] at hm hroom
      cases hm with
      | running hm =>
          obtain ⟨p, s', k', hgo, hmkeeps, hsame, hcurrent, hfresh, hp, -, hunsettled⟩ :=
            hm.step h.indexed.toLocated
          have hspares := h.indexed.spares hmkeeps hsame.resembles
          have hstep : sys.step (.merge limit) = sys.became s' sys.writer (.ofProgress p) := by
            simp only [System.step, hmerge, hgo]
          rw [hstep]
          refine ⟨k', h.spared hspares (h.writer.carried h.indexed hspares.toCarries hcurrent hfresh)
            (.of_moves hp) (fun hf => ?_) ?_⟩
          · rw [hmerge]
            cases p with
            | running m' => exact hunsettled m' rfl hf
            | done r => cases hf
          · rw [hmerge, MergeStatus.wants_ofProgress]
            omega
  | finished r =>
      have hstep : sys.step (.merge limit) = sys := by
        simp only [System.step, hmerge]
      rw [hstep]
      exact ⟨k, h⟩

theorem step_wait (h : Works origin base sys k versions) (clock : UInt64) :
    Works origin base (sys.step (.wait clock)) k versions :=
  h.alike (.waited sys.map clock)

theorem step_get [LawfulKey K] (h : Works origin base sys k versions) (key : K) (notFound : Int64) :
    Works origin base (sys.step (.get key notFound)) k versions := by
  let map := sys.map.count fun c => { c with gets := c.gets + 1 }
  have ha : Alike sys.map map := .gotten sys.map
  have hworks := h.alike ha
  have hi : Indexed map k versions := hworks.indexed
  let bucket := (sys.map.self.place key).2
  let l : Lookup K := ⟨key, notFound, (sys.map.self.place key).1, bucket, sys.map.self.table.get bucket⟩
  let g : Get K := ⟨key, notFound, .reading l, [map], 0, sys.merge.active⟩
  have hb : bucket < map.self.dimensions.buckets := h.indexed.place_lt key
  have hslot := hi.slot_cases hb
  have hg : Gets map k sys.merge.settled g := by
    refine .reading (l := l) rfl ⟨rfl, rfl, rfl, ⟨map, List.mem_singleton_self _, versions bucket, rfl,
      hi.publishes hb, hi.loaded hb⟩, fun _ => ?_, fun ho => ?_, fun _ => rfl⟩ (Nat.zero_le _)
    · rcases hslot with ⟨hzero, -⟩ | ⟨-, bs, -, -, hm, -⟩
      · exact .inl hzero
      · exact .inr ⟨_, hm⟩
    · have hidle : sys.merge.active = false := ho.resolve_right (Nat.lt_irrefl 0)
      rcases hslot with ⟨hzero, -⟩ | ⟨-, bs, -, -, -, hlast⟩
      · exact .inl hzero
      · exact .inr ⟨_, hlast (h.merge.over hidle).2⟩
  have hstep : sys.step (.get key notFound) =
      { sys.became map sys.writer sys.merge with
        gets := (sys.became map sys.writer sys.merge).gets ++ [g] } := rfl
  rw [hstep]
  refine ⟨hworks.indexed, hworks.remains, hworks.writer, hworks.merge, fun g' hg' => ?_,
    fun hactive g' hg' l' hs => ?_, hworks.room⟩
  · rcases List.mem_append.mp hg' with hg' | hg'
    · exact hworks.gets g' hg'
    · rw [List.mem_singleton.mp hg']
      exact hg
  · rcases List.mem_append.mp hg' with hg' | hg'
    · exact hworks.overlapped hactive g' hg' l' hs
    · rw [List.mem_singleton.mp hg']
      exact hactive

theorem step_advance [LawfulKey K] (h : Works origin base sys k versions) (i : Nat) :
    Works origin base (sys.step (.advance i)) k versions := by
  cases hget : sys.gets[i]? with
  | none =>
      have hstep : sys.step (.advance i) = sys := by
        simp only [System.step, hget]
      rw [hstep]
      exact h
  | some g =>
      obtain ⟨g', map, hgo, ha, hg'⟩ := (h.gets g (List.mem_of_getElem? hget)).advance h.indexed
        h.merge.moves_of_settled sys.merge.active
      have hstep : sys.step (.advance i) =
          { sys with gets := sys.gets.set i g' }.became map sys.writer sys.merge := by
        simp only [System.step, hget, hgo]
      have hworks := h.alike ha
      rw [hstep]
      refine ⟨hworks.indexed, hworks.remains, hworks.writer, hworks.merge, fun g2 hg2 => ?_,
        fun hactive g2 hg2 l hs => ?_, hworks.room⟩
      · obtain ⟨g1, hg1, rfl⟩ := List.mem_map.mp hg2
        rcases List.mem_or_eq_of_mem_set hg1 with hg1 | rfl
        · exact hworks.gets _ (List.mem_map_of_mem hg1)
        · exact hg'
      · obtain ⟨g1, -, rfl⟩ := List.mem_map.mp hg2
        obtain ⟨key, notFound, stage, window, retries, overlapped⟩ := g1
        cases stage with
        | reading l' =>
            have hm : sys.merge.active = true := hactive
            simp [Get.saw, hm]
        | missed l' index => cases hs
        | returned r => cases hs

/-- Whoever's turn it is, what holds of a system holds after the turn. -/
theorem step [LawfulKey K] (h : Works origin base sys k versions)
    (hc : ∀ changes, origin.self.changes = some changes → Collected origin.self.dimensions changes)
    (turn : Turn K) : ∃ k' versions', Works origin base (sys.step turn) k' versions' := by
  cases turn with
  | write => exact h.step_write hc
  | merge limit =>
      obtain ⟨k', h'⟩ := h.step_merge limit
      exact ⟨k', versions, h'⟩
  | get key notFound => exact ⟨k, versions, h.step_get key notFound⟩
  | advance i => exact ⟨k, versions, h.step_advance i⟩
  | wait clock => exact ⟨k, versions, h.step_wait clock⟩

theorem run [LawfulKey K] (h : Works origin base sys k versions)
    (hc : ∀ changes, origin.self.changes = some changes → Collected origin.self.dimensions changes)
    (turns : List (Turn K)) : ∃ k' versions', Works origin base (sys.run turns) k' versions' := by
  induction turns generalizing sys k versions with
  | nil => exact ⟨k, versions, h⟩
  | cons turn turns ih =>
      obtain ⟨k', versions', h'⟩ := h.step hc turn
      exact ih h'

theorem idle (h : Works origin base sys k versions) (hi : Idle origin line base)
    (hw : sys.writer.active = false) (hm : sys.merge.active = false) :
    Idle sys.map k.line versions := by
  obtain ⟨hold, hmoves⟩ := h.merge.over hm
  have hwriter := h.writer.over hw
  refine ⟨hi.configured.remains h.remains, h.indexed.idle hwriter.1 hold hmoves, fun changes hc => ?_⟩
  rw [h.remains.dimensions]
  rcases hwriter.2 with hs | hs
  · exact hi.collected changes (hs ▸ hc)
  · rw [hs] at hc
    cases hc

end Works

end MeteredStorage
