import MeteredStorage.Proofs.PagedMap.Refinement
import MeteredStorage.Proofs.PagedMap.Sizing

namespace MeteredStorage

variable {K : Type}

structure Elsewhere (s t : MapState K) : Prop where
  dimensions : t.self.dimensions = s.self.dimensions
  busy : t.self.busy = s.self.busy
  changes : t.self.changes = s.self.changes

namespace Elsewhere

variable {s t u : MapState K}

theorem refl (s : MapState K) : Elsewhere s s := ⟨rfl, rfl, rfl⟩

theorem trans (h : Elsewhere s t) (h' : Elsewhere t u) : Elsewhere s u :=
  ⟨h'.dimensions.trans h.dimensions, h'.busy.trans h.busy, h'.changes.trans h.changes⟩

theorem inArchive {α : Type} (s : MapState K) (task : ArchiveTask α) :
    Elsewhere s (s.inArchive task).2 := ⟨rfl, rfl, rfl⟩

theorem of_inArchive {α : Type} {task : ArchiveTask α} {r : Except ArchiveError α}
    (h : s.inArchive task = (r, t)) : Elsewhere s t := by
  have hs := inArchive s task
  rwa [h] at hs

theorem readPage (s : MapState K) (bucket : Nat) (location : Int64) (buffer : Bytes) :
    Elsewhere s (PagedMap.readPage s bucket location buffer).2 := by
  rw [PagedMap.readPage]
  split
  · rename_i heq
    exact of_inArchive heq
  · rename_i heq
    dsimp only
    split <;> exact (of_inArchive heq).trans ⟨rfl, rfl, rfl⟩
  · rename_i heq
    exact of_inArchive heq

theorem conclude (s : MapState K) (files relocated : Nat) :
    Elsewhere s (MapMerge.conclude s files relocated).2 := ⟨rfl, rfl, rfl⟩

theorem mergeStart (limit : UInt64) (s : MapState K) : Elsewhere s (MapMerge.start limit s).2 := by
  have hreport : Elsewhere s (s.report (.mapMergeStarted s.self.name
    (s.self.archive.oldest limit).length)) := ⟨rfl, rfl, rfl⟩
  rw [MapMerge.start]
  split
  · exact .refl s
  · refine hreport.trans ?_
    rw [MapMerge.prepare]
    split
    · rename_i heq
      exact of_inArchive heq
    · rename_i heq
      exact (of_inArchive heq).trans (conclude ..)
    · rename_i heq
      exact of_inArchive heq

theorem relocated (s : MapState K) (move : Relocation) :
    Elsewhere s { s with self := (s.self.relocate move).1 } := by
  rw [PagedMap.relocate]
  split <;> exact ⟨rfl, rfl, rfl⟩

theorem mergeStep (m : MapMerge) (s : MapState K) : Elsewhere s (m.step s).2 := by
  rw [MapMerge.step]
  split
  · exact relocated s _
  · exact .refl s
  · split <;> exact of_inArchive ‹_›
  · split
    · exact (of_inArchive ‹_›).trans (conclude ..)
    · exact of_inArchive ‹_›

theorem mergeRun (m : MapMerge) (s : MapState K) : Elsewhere s (m.run s).2 := by
  induction m, s using MapMerge.run.induct with
  | case1 m s r s' hstep =>
      have h := mergeStep m s
      rw [hstep] at h
      rw [MapMerge.run]
      split <;> simp_all
  | case2 m s m' s' hstep ih =>
      have h := mergeStep m s
      rw [hstep] at h
      rw [MapMerge.run]
      split
      · simp_all
      · rename_i heq
        rw [hstep] at heq
        cases heq
        exact h.trans ih

theorem merge (limit : UInt64) (s : MapState K) : Elsewhere s (PagedMap.merge limit s).2 := by
  have h := mergeStart limit s
  rw [PagedMap.merge]
  split
  · rename_i heq
    rwa [heq] at h
  · rename_i heq
    rw [heq] at h
    exact h.trans (mergeRun ..)

end Elsewhere

def MapError.OfSession (e : MapError) : Prop := e = .sessionActive ∨ e = .noSession

namespace Flush

variable [FixedKey K] {f f' : Flush K} {s s' : MapState K}

def Blameless (f : Flush K) : Prop := ∀ e, f.stage = .closing (some e) → ¬ e.OfSession

theorem not_ofSession_of_applyChanges {form : PageForm} {changes : Bindings K} {page left : Bytes}
    {e : MapError} (h : applyChanges form changes page = .error (e, left)) : ¬ e.OfSession := by
  induction changes generalizing page with
  | nil => cases h
  | cons c changes ih =>
      rw [applyChanges] at h
      split at h
      · exact ih h
      · rename_i hput
        cases h
        rw [Page.put] at hput
        split at hput
        · cases hput
        · split at hput <;> cases hput
          simp [MapError.OfSession]

omit [FixedKey K] in
theorem not_ofSession_of_readPage {bucket : Nat} {location : Int64} {buffer : Bytes} {e : MapError}
    (h : (PagedMap.readPage s bucket location buffer).1 = .failed e) : ¬ e.OfSession := by
  rw [PagedMap.readPage] at h
  split at h
  · simp only [PagedMap.checkPage] at h
    split at h
    · cases h
      simp [MapError.OfSession]
    · split at h
      · cases h
      · rename_i hvalid
        cases h
        rw [Page.validate] at hvalid
        split at hvalid
        · cases hvalid
          simp [MapError.OfSession]
        · split at hvalid <;> cases hvalid
          simp [MapError.OfSession]
  · dsimp only at h
    split at h <;> cases h
    simp [MapError.OfSession]
  · cases h
    simp [MapError.OfSession]

theorem compose_elsewhere (f : Flush K) (bucket : Nat) (changes : Bindings K) (page : Bytes)
    (s : MapState K) : Elsewhere s (f.compose bucket changes page s).2 ∧
      (f.compose bucket changes page s).1.Blameless := by
  rw [compose]
  split
  · exact ⟨.refl s, fun e he => by simp [withStage] at he⟩
  · rename_i happly
    refine ⟨⟨rfl, rfl, rfl⟩, fun e he => ?_⟩
    cases he
    exact not_ofSession_of_applyChanges happly

theorem readStep_elsewhere (f : Flush K) (bucket : Nat) (changes : Bindings K) (location : Int64)
    (s : MapState K) : Elsewhere s (f.readStep bucket changes location s).2 ∧
      (f.readStep bucket changes location s).1.Blameless := by
  have hread := Elsewhere.readPage s bucket location f.buffer
  have herror {e : MapError} (h : (PagedMap.readPage s bucket location f.buffer).1 = .failed e) :
      ¬ e.OfSession := not_ofSession_of_readPage h
  rw [readStep]
  split
  · exact f.compose_elsewhere ..
  · split
    · rename_i heq
      rw [heq] at hread
      obtain ⟨hgo, hblameless⟩ := f.compose_elsewhere bucket changes _ _
      exact ⟨hread.trans hgo, hblameless⟩
    · rename_i heq
      rw [heq] at hread
      exact ⟨hread, fun e he => by simp [withStage] at he⟩
    · rename_i heq
      rw [heq] at hread herror
      refine ⟨hread, fun e he => ?_⟩
      cases he
      exact herror rfl

/-- A flush that goes on leaves the session as it is. -/
theorem step_running (h : f.step s = (.running f', s')) :
    Elsewhere s s' ∧ f'.Blameless := by
  have hnone {g : Flush K} {stage : FlushStage K} (hs : ∀ e, stage ≠ .closing (some e)) :
      (g.withStage stage).Blameless := fun e he => absurd he (hs e)
  unfold step at h
  split at h
  case h_1 =>
    split at h <;> cases h
    exact ⟨.of_inArchive ‹_›, hnone (by simp)⟩
  case h_2 =>
    split at h <;> cases h
    · exact ⟨.refl s, hnone (by simp)⟩
    · exact ⟨.refl s, hnone (by simp)⟩
  case h_3 bucket changes location _ =>
    cases h
    exact f.readStep_elsewhere bucket changes location s
  case h_4 =>
    split at h <;> cases h
    · exact ⟨.of_inArchive ‹_›, hnone (by simp)⟩
    · refine ⟨.of_inArchive ‹_›, fun e he => ?_⟩
      cases he
      simp [MapError.OfSession]
  case h_5 =>
    cases h
    exact ⟨⟨rfl, rfl, rfl⟩, hnone (by simp)⟩
  case h_6 => cases h

omit [FixedKey K] in
theorem closeStep_cases (f : Flush K) {failure : Option MapError} (s : MapState K)
    (hf : ∀ e, failure = some e → ¬ e.OfSession) :
    (f.closeStep failure s).2.self.busy = false ∧
      (f.closeStep failure s).2.self.changes = s.self.changes ∧
      (f.closeStep failure s).2.self.dimensions = s.self.dimensions ∧
      ∀ e, (f.closeStep failure s).1 = .error e → ¬ e.OfSession := by
  unfold closeStep
  dsimp only
  split
  · exact ⟨rfl, rfl, rfl, fun e he => hf e (by cases he; rfl)⟩
  · exact ⟨rfl, rfl, rfl, fun e he => hf e (by cases he; rfl)⟩
  · exact ⟨rfl, rfl, rfl, nofun⟩
  · refine ⟨rfl, rfl, rfl, fun e he => ?_⟩
    cases he
    simp [MapError.OfSession]

/-- A flush that ends, well or not, lowers the guard and does nothing else to the session. -/
theorem step_done {r : Except MapError Unit} (hf : f.Blameless) (h : f.step s = (.done r, s')) :
    s'.self.busy = false ∧ s'.self.changes = s.self.changes ∧
      s'.self.dimensions = s.self.dimensions ∧ ∀ e, r = .error e → ¬ e.OfSession := by
  unfold step at h
  split at h
  case h_1 =>
    split at h <;> cases h
    have helse := Elsewhere.of_inArchive ‹_›
    refine ⟨rfl, helse.changes, helse.dimensions, fun e he => ?_⟩
    cases he
    simp [MapError.OfSession]
  case h_2 => split at h <;> cases h
  case h_3 => cases h
  case h_4 => split at h <;> cases h
  case h_5 => cases h
  case h_6 failure hs =>
    cases h
    exact f.closeStep_cases s fun e he => hf e (he ▸ hs)

/-- A flush that nobody interrupts comes to such an end. -/
theorem run_done (hf : f.Blameless) :
    (f.run s).2.self.busy = false ∧ (f.run s).2.self.changes = s.self.changes := by
  induction f, s using Flush.run.induct with
  | case1 f s r s' hstep =>
      obtain ⟨hbusy, hchanges, -⟩ := step_done hf hstep
      rw [run_of_done hstep]
      exact ⟨hbusy, hchanges⟩
  | case2 f s f' s' hstep ih =>
      -- Nobody else works in between, so the changes are those that the start of the flush has left.
      obtain ⟨helse, hf'⟩ := step_running hstep
      obtain ⟨hbusy, hchanges⟩ := ih hf'
      rw [run_of_running hstep]
      exact ⟨hbusy, hchanges.trans helse.changes⟩

end Flush

structure SharedMap (K : Type) where
  map : MapState K
  flushes : List (Flush K)

structure EndedSession (K : Type) where
  puts : List (K × Int64)
  taken : ChangeSet K

/-- A change set holds the last value of each key that was put, once and in the bucket of the key. -/
structure Gathers [DecidableEq K] [FixedKey K] (m : PagedMap K) (puts : List (K × Int64))
    (changes : ChangeSet K) : Prop where
  collected : Collected m.dimensions changes
  values : ∀ b key, changes.value? b key = if b = (m.place key).2 then lastPut key puts else none

namespace SharedMap

inductive Call (K : Type)
  | start
  | put (key : K) (value : Int64)
  | finish

inductive Reply (K : Type)
  | returned (result : Except MapError Unit)
  | flushing (flush : Flush K)

inductive Effect (K : Type)
  | started
  | put (key : K) (value : Int64)
  | took (changes : ChangeSet K)

def sessions (u : SharedMap K) : Nat := u.map.self.changes.toList.length + u.flushes.length

def effect? : Call K × Reply K → Option (Effect K)
  | (.start, .returned (.ok ())) => some .started
  | (.put key value, .returned (.ok ())) => some (.put key value)
  | (.finish, .returned (.ok ())) => some (.took [])
  | (.finish, .flushing f) => some (.took f.todo)
  | _ => none

def beginning (puts : List (K × Int64)) : List (Effect K) :=
  .started :: puts.map fun c => .put c.1 c.2

def ended (e : EndedSession K) : List (Effect K) := beginning e.puts ++ [.took e.taken]

inductive Phase (u : SharedMap K) : Prop
  | resting (hb : u.map.self.busy = false) (hc : u.map.self.changes = none) (hf : u.flushes = [])
  | collecting (hb : u.map.self.busy = true) (hc : u.map.self.changes.isSome) (hf : u.flushes = [])
  | flushing {f : Flush K} (hb : u.map.self.busy = true) (hc : u.map.self.changes = none)
      (hf : u.flushes = [f]) (hn : f.Blameless)

namespace Phase

variable {u : SharedMap K}

theorem sessions_le (h : Phase u) : u.sessions ≤ 1 := by
  cases h with
  | resting hb hc hf => simp [sessions, hc, hf]
  | collecting hb hc hf =>
      obtain ⟨changes, hc⟩ := Option.isSome_iff_exists.mp hc
      simp [sessions, hc, hf]
  | flushing hb hc hf hn => simp [sessions, hc, hf]

theorem busy_iff (h : Phase u) : u.map.self.busy = true ↔ u.sessions = 1 := by
  cases h with
  | resting hb hc hf => simp [sessions, hb, hc, hf]
  | collecting hb hc hf =>
      obtain ⟨changes, hc⟩ := Option.isSome_iff_exists.mp hc
      simp [sessions, hb, hc, hf]
  | flushing hb hc hf hn => simp [sessions, hb, hc, hf]

theorem free_of_none (h : Phase u) (hb : u.map.self.busy = false) :
    u.map.self.changes = none ∧ u.flushes = [] := by
  cases h with
  | resting _ hc hf => exact ⟨hc, hf⟩
  | collecting hb' => rw [hb] at hb'; cases hb'
  | flushing hb' => rw [hb] at hb'; cases hb'

theorem open_of_some (h : Phase u) {changes : ChangeSet K} (hc : u.map.self.changes = some changes) :
    u.map.self.busy = true ∧ u.flushes = [] := by
  cases h with
  | resting _ hc' => rw [hc] at hc'; cases hc'
  | collecting hb _ hf => exact ⟨hb, hf⟩
  | flushing _ hc' => rw [hc] at hc'; cases hc'

theorem sole_flush (h : Phase u) {front rest : List (Flush K)} {f : Flush K}
    (hf : u.flushes = front ++ f :: rest) :
    front = [] ∧ rest = [] ∧ u.map.self.busy = true ∧ u.map.self.changes = none ∧ f.Blameless := by
  cases h with
  | resting _ _ hf' => rw [hf] at hf'; simp at hf'
  | collecting _ _ hf' => rw [hf] at hf'; simp at hf'
  | flushing hb hc hf' hn =>
      rw [hf, List.append_eq_singleton_iff] at hf'
      rcases hf' with ⟨rfl, he⟩ | ⟨-, he⟩
      · cases he
        exact ⟨rfl, rfl, hb, hc, hn⟩
      · cases he

end Phase

variable [DecidableEq K] [FixedKey K]

def answer (u : SharedMap K) : Call K → Reply K × SharedMap K
  | .start =>
    let (r, s) := PagedMap.startWriting u.map
    (.returned r, { u with map := s })
  | .put key value =>
    let (r, s) := PagedMap.put key value u.map
    (.returned r, { u with map := s })
  | .finish =>
    match Flush.start u.map with
    | (.done r, s) => (.returned r, { u with map := s })
    | (.running f, s) => (.flushing f, ⟨s, f :: u.flushes⟩)

/--
A map that has been opened, its flushes and the calls so far with their replies. What others do
to the map, and what a call of the archive has done halfway, is a change elsewhere.
-/
inductive Run (K : Type) [DecidableEq K] [FixedKey K] (directory : Path) (name : String)
    (mapSize : UInt64) : SharedMap K → List (Call K × Reply K) → Prop
  | opened {host host' : Host} {m : PagedMap K}
      (h : PagedMap.init K directory name mapSize host = (.ok m, host')) :
      Run K directory name mapSize ⟨⟨m, host'⟩, []⟩ []
  | called {u : SharedMap K} {trace : List (Call K × Reply K)} (call : Call K)
      (hr : Run K directory name mapSize u trace) :
      Run K directory name mapSize (u.answer call).2 (trace ++ [(call, (u.answer call).1)])
  | worked {s s' : MapState K} {front rest : List (Flush K)} {f f' : Flush K}
      {trace : List (Call K × Reply K)}
      (hr : Run K directory name mapSize ⟨s, front ++ f :: rest⟩ trace)
      (h : f.step s = (.running f', s')) :
      Run K directory name mapSize ⟨s', front ++ f' :: rest⟩ trace
  | returned {s s' : MapState K} {front rest : List (Flush K)} {f : Flush K}
      {r : Except MapError Unit} {trace : List (Call K × Reply K)}
      (hr : Run K directory name mapSize ⟨s, front ++ f :: rest⟩ trace)
      (h : f.step s = (.done r, s')) :
      Run K directory name mapSize ⟨s', front ++ rest⟩ trace
  | elsewhere {s s' : MapState K} {flushes : List (Flush K)} {trace : List (Call K × Reply K)}
      (hr : Run K directory name mapSize ⟨s, flushes⟩ trace) (h : Elsewhere s s') :
      Run K directory name mapSize ⟨s', flushes⟩ trace
  | shuffled {s : MapState K} {flushes : List (Flush K)} {trace : List (Call K × Reply K)}
      {changes changes' : ChangeSet K} (hr : Run K directory name mapSize ⟨s, flushes⟩ trace)
      (hs : s.self.changes = some changes) (hp : ChangeSet.Rearranged changes changes') :
      Run K directory name mapSize
        ⟨s.update fun m => { m with changes := some changes' }, flushes⟩ trace

inductive Concludes (u : SharedMap K) : Except MapError Unit → SharedMap K → Prop
  | empty {r : Except MapError Unit} {u' : SharedMap K} (hc : u.map.self.changes.isSome)
      (h : u.answer .finish = (.returned r, u')) : Concludes u r u'
  | flushed {front rest : List (Flush K)} {f : Flush K} {r : Except MapError Unit} {s' : MapState K}
      (hf : u.flushes = front ++ f :: rest) (h : f.step u.map = (.done r, s')) :
      Concludes u r ⟨s', front ++ rest⟩

inductive Pending (m : PagedMap K) : List (Effect K) → Prop
  | none (hc : m.changes = none) : Pending m []
  | some {puts : List (K × Int64)} {changes : ChangeSet K} (hc : m.changes = some changes)
      (hg : Gathers m puts changes) : Pending m (beginning puts)

/-- The effects are those of sessions one after another, of which the last may be open. -/
def Told (m : PagedMap K) (effects : List (Effect K)) : Prop :=
  ∃ (ends : List (EndedSession K)) (pending : List (Effect K)),
    effects = ends.flatMap ended ++ pending ∧ (∀ e ∈ ends, Gathers m e.puts e.taken) ∧
      Pending m pending

structure Sound (u : SharedMap K) (effects : List (Effect K)) : Prop where
  phase : Phase u
  shaped : Shaped K u.map.self.dimensions
  told : Told u.map.self effects

section Answer

variable {u : SharedMap K}

theorem answer_start_busy (hb : u.map.self.busy = true) :
    u.answer .start = (.returned (.error .sessionActive), u) := by
  simp [answer, PagedMap.startWriting, hb]

theorem answer_start_free (hb : u.map.self.busy = false) :
    u.answer .start = (.returned (.ok ()),
      { u with map := u.map.update fun m => { m with busy := true, changes := some [] } }) := by
  simp [answer, PagedMap.startWriting, hb]

theorem answer_put_none (hc : u.map.self.changes = none) (key : K) (value : Int64) :
    u.answer (.put key value) = (.returned (.error .noSession), u) := by
  simp [answer, PagedMap.put, hc]

theorem answer_put_some {changes : ChangeSet K} (hc : u.map.self.changes = some changes) (key : K)
    (value : Int64) : u.answer (.put key value) = (.returned (.ok ()),
      { u with map := (u.map.update fun m => { m with
          changes := some (changes.insert (u.map.self.place key).2 key value) }).count fun c =>
            { c with puts := c.puts + 1 } }) := by
  simp [answer, PagedMap.put, hc]

theorem answer_finish_none (hc : u.map.self.changes = none) :
    u.answer .finish = (.returned (.error .noSession), u) := by
  simp only [answer, Flush.start, hc]

theorem answer_finish_empty (hc : u.map.self.changes = some []) :
    u.answer .finish = (.returned (.ok ()),
      { u with map := u.map.update fun m => { m with changes := none, busy := false } }) := by
  simp only [answer, Flush.start, hc]

theorem answer_finish_cons {c : Nat × Bindings K} {changes : ChangeSet K}
    (hc : u.map.self.changes = some (c :: changes)) :
    u.answer .finish =
      (.flushing ⟨c :: changes, changes.length + 1, Bytes.zeros pageSize, .opening⟩,
        ⟨u.map.update fun m => { m with changes := none },
          ⟨c :: changes, changes.length + 1, Bytes.zeros pageSize, .opening⟩ :: u.flushes⟩) := by
  simp only [answer, Flush.start, hc, List.length_cons]

end Answer

end SharedMap

namespace Gathers

variable [DecidableEq K] [FixedKey K] {m m' : PagedMap K} {puts : List (K × Int64)}
  {changes changes' : ChangeSet K}

theorem congr (h : Gathers m puts changes) (hd : m'.dimensions = m.dimensions) :
    Gathers m' puts changes where
  collected := hd ▸ h.collected
  values b key := by
    rw [PagedMap.place, hd]
    exact h.values b key

theorem nothing (m : PagedMap K) : Gathers m [] [] where
  collected := .nil _
  values _ _ := (ite_self none).symm

theorem insert (h : Gathers m puts changes) (hs : Shaped K m.dimensions) (key : K) (value : Int64) :
    Gathers m (puts ++ [(key, value)]) (changes.insert (m.place key).2 key value) where
  collected := h.collected.insert (Nat.mod_lt _ hs.buckets_pos) rfl value
  values b k := by
    rw [ChangeSet.value?_insert, lastPut_concat, h.values]
    by_cases hk : k = key
    · subst hk
      by_cases hb : b = (m.place k).2 <;> simp [hb]
    · simp [hk]

theorem rearranged (h : Gathers m puts changes) (hp : ChangeSet.Rearranged changes changes') :
    Gathers m puts changes' where
  collected := h.collected.rearranged hp
  values b key := (h.collected.value?_rearranged hp b key).trans (h.values b key)

end Gathers

theorem PagedMap.of_init [FixedKey K] {directory : Path} {name : String} {mapSize : UInt64}
    {host host' : Host} {m : PagedMap K} (h : init K directory name mapSize host = (.ok m, host')) :
    dimensionsFor K mapSize = .ok m.dimensions ∧ m.busy = false ∧ m.changes = none := by
  obtain ⟨archive, t, -, h⟩ := Task.of_bind_ok h
  exact of_ofArchive h

namespace SharedMap

variable [DecidableEq K] [FixedKey K] {u u' : SharedMap K} {effects : List (Effect K)}

section Told

variable {m m' : PagedMap K} {puts : List (K × Int64)} {changes : ChangeSet K}

theorem Told.elsewhere (h : Told m effects) (hd : m'.dimensions = m.dimensions)
    (hc : m'.changes = m.changes) : Told m' effects := by
  obtain ⟨ends, pending, rfl, hends, hpending⟩ := h
  refine ⟨ends, pending, rfl, fun e he => (hends e he).congr hd, ?_⟩
  cases hpending with
  | none hm => exact .none (hc.trans hm)
  | some hm hg => exact .some (hc.trans hm) (hg.congr hd)

theorem Told.started (h : Told m effects) (hm : m.changes = none) (hd : m'.dimensions = m.dimensions)
    (hc : m'.changes = some []) : Told m' (effects ++ [.started]) := by
  obtain ⟨ends, pending, rfl, hends, hpending⟩ := h
  cases hpending with
  | none =>
      refine ⟨ends, beginning [], by rw [List.append_nil]; rfl, fun e he => (hends e he).congr hd,
        .some hc (.nothing m')⟩
  | some hm' => rw [hm] at hm'; cases hm'

theorem Told.put (h : Told m effects) (hs : Shaped K m.dimensions) (hm : m.changes = some changes)
    {key : K} {value : Int64} (hd : m'.dimensions = m.dimensions)
    (hc : m'.changes = some (changes.insert (m.place key).2 key value)) :
    Told m' (effects ++ [.put key value]) := by
  obtain ⟨ends, pending, rfl, hends, hpending⟩ := h
  cases hpending with
  | none hm' => rw [hm] at hm'; cases hm'
  | @some puts _ hm' hg =>
      rw [hm] at hm'
      cases hm'
      refine ⟨ends, beginning (puts ++ [(key, value)]), ?_, fun e he => (hends e he).congr hd,
        .some hc ((hg.insert hs key value).congr hd)⟩
      simp [beginning]

theorem Told.took (h : Told m effects) (hm : m.changes = some changes)
    (hd : m'.dimensions = m.dimensions) (hc : m'.changes = none) :
    Told m' (effects ++ [.took changes]) := by
  obtain ⟨ends, pending, rfl, hends, hpending⟩ := h
  cases hpending with
  | none hm' => rw [hm] at hm'; cases hm'
  | @some puts _ hm' hg =>
      rw [hm] at hm'
      cases hm'
      refine ⟨ends ++ [⟨puts, changes⟩], [], ?_, fun e he => ?_, .none hc⟩
      · simp [ended, beginning]
      · rcases List.mem_append.mp he with he | he
        · exact (hends e he).congr hd
        · cases List.mem_singleton.mp he
          exact hg.congr hd

theorem Told.rearranged (h : Told m effects) (hm : m.changes = some changes) {changes' : ChangeSet K}
    (hp : ChangeSet.Rearranged changes changes') (hd : m'.dimensions = m.dimensions)
    (hc : m'.changes = some changes') : Told m' effects := by
  obtain ⟨ends, pending, rfl, hends, hpending⟩ := h
  refine ⟨ends, pending, rfl, fun e he => (hends e he).congr hd, ?_⟩
  cases hpending with
  | none hm' => rw [hm] at hm'; cases hm'
  | some hm' hg =>
      rw [hm] at hm'
      cases hm'
      exact .some hc ((hg.rearranged hp).congr hd)

end Told

theorem Sound.called (h : Sound u effects) (call : Call K) :
    Sound (u.answer call).2 (effects ++ (effect? (call, (u.answer call).1)).toList) := by
  cases call with
  | start =>
      cases hb : u.map.self.busy with
      | true =>
          rw [answer_start_busy hb]
          simpa [effect?] using h
      | false =>
          obtain ⟨hc, hf⟩ := h.phase.free_of_none hb
          rw [answer_start_free hb]
          exact ⟨.collecting rfl rfl hf, h.shaped, h.told.started hc rfl rfl⟩
  | put key value =>
      cases hc : u.map.self.changes with
      | none =>
          rw [answer_put_none hc]
          simpa [effect?] using h
      | some changes =>
          obtain ⟨hb, hf⟩ := h.phase.open_of_some hc
          rw [answer_put_some hc]
          exact ⟨.collecting hb rfl hf, h.shaped, h.told.put h.shaped hc rfl rfl⟩
  | finish =>
      cases hc : u.map.self.changes with
      | none =>
          rw [answer_finish_none hc]
          simpa [effect?] using h
      | some changes =>
          obtain ⟨hb, hf⟩ := h.phase.open_of_some hc
          cases changes with
          | nil =>
              rw [answer_finish_empty hc]
              exact ⟨.resting rfl rfl hf, h.shaped, h.told.took hc rfl rfl⟩
          | cons c changes =>
              rw [answer_finish_cons hc, hf]
              exact ⟨.flushing hb rfl rfl (fun e he => by cases he), h.shaped,
                h.told.took hc rfl rfl⟩

theorem Sound.elsewhere {s s' : MapState K} {flushes : List (Flush K)}
    (h : Sound ⟨s, flushes⟩ effects) (helse : Elsewhere s s') : Sound ⟨s', flushes⟩ effects := by
  obtain ⟨hphase, hshaped, htold⟩ := h
  refine ⟨?_, helse.dimensions ▸ hshaped, htold.elsewhere helse.dimensions helse.changes⟩
  cases hphase with
  | resting hb hc hf => exact .resting (helse.busy.trans hb) (helse.changes.trans hc) hf
  | collecting hb hc hf =>
      exact .collecting (helse.busy.trans hb) ((congrArg Option.isSome helse.changes).trans hc) hf
  | flushing hb hc hf hn => exact .flushing (helse.busy.trans hb) (helse.changes.trans hc) hf hn

section Steps

variable {s s' : MapState K} {front rest : List (Flush K)} {f f' : Flush K}

theorem Sound.worked (h : Sound ⟨s, front ++ f :: rest⟩ effects) (hstep : f.step s = (.running f', s')) :
    Sound ⟨s', front ++ f' :: rest⟩ effects := by
  -- A second flush would be a second session.
  obtain ⟨rfl, rfl, hb, hc, -⟩ := h.phase.sole_flush rfl
  obtain ⟨helse, hn⟩ := Flush.step_running hstep
  have helsewhere := h.elsewhere helse
  exact ⟨.flushing (helse.busy.trans hb) (helse.changes.trans hc) rfl hn, helsewhere.shaped,
    helsewhere.told⟩

theorem Sound.returned {r : Except MapError Unit} (h : Sound ⟨s, front ++ f :: rest⟩ effects)
    (hstep : f.step s = (.done r, s')) : Sound ⟨s', front ++ rest⟩ effects := by
  obtain ⟨rfl, rfl, hb, hc, hn⟩ := h.phase.sole_flush rfl
  obtain ⟨hbusy, hchanges, hdimensions, -⟩ := Flush.step_done hn hstep
  exact ⟨.resting hbusy (hchanges.trans hc) rfl, hdimensions ▸ h.shaped,
    h.told.elsewhere hdimensions hchanges⟩

theorem Sound.shuffled {flushes : List (Flush K)} {changes changes' : ChangeSet K}
    (h : Sound ⟨s, flushes⟩ effects) (hs : s.self.changes = some changes)
    (hp : ChangeSet.Rearranged changes changes') :
    Sound ⟨s.update fun m => { m with changes := some changes' }, flushes⟩ effects := by
  obtain ⟨hb, hf⟩ := h.phase.open_of_some hs
  exact ⟨.collecting hb rfl hf, h.shaped, h.told.rearranged hs hp rfl rfl⟩

end Steps

variable {directory : Path} {name : String} {mapSize : UInt64} {trace : List (Call K × Reply K)}

theorem Run.sound (h : Run K directory name mapSize u trace) :
    Sound u (trace.filterMap effect?) := by
  induction h with
  | opened h =>
      obtain ⟨hd, hb, hc⟩ := PagedMap.of_init h
      exact ⟨.resting hb hc rfl, shaped_of_dimensionsFor hd, [], [], rfl, by simp, .none hc⟩
  | called call _ ih =>
      rw [List.filterMap_append, List.filterMap_cons, List.filterMap_nil]
      have hcalled := ih.called call
      split <;> simp_all
  | worked _ hstep ih => exact ih.worked hstep
  | returned _ hstep ih => exact ih.returned hstep
  | elsewhere _ helse ih => exact ih.elsewhere helse
  | shuffled _ hs hp ih => exact ih.shuffled hs hp

theorem answer_start_ok {s : MapState K} (hb : s.self.busy = false) :
    ∃ u', answer ⟨s, []⟩ .start = (.returned (.ok ()), u') :=
  ⟨_, answer_start_free (u := ⟨s, []⟩) hb⟩

/-- Which calls are refused depends on the session alone. -/
theorem Phase.refused (h : Phase u) {call : Call K} {reply : Reply K}
    (hgo : u.answer call = (reply, u')) :
    (reply = .returned (.error .sessionActive) ↔ call = .start ∧ u.sessions = 1) ∧
      (reply = .returned (.error .noSession) ↔ call ≠ .start ∧ u.map.self.changes = none) ∧
      ∀ e, reply = .returned (.error e) → e.OfSession ∧ u' = u := by
  cases call with
  | start =>
      rw [← h.busy_iff]
      cases hb : u.map.self.busy with
      | true =>
          rw [answer_start_busy hb] at hgo
          cases hgo
          simp [MapError.OfSession]
      | false =>
          rw [answer_start_free hb] at hgo
          cases hgo
          simp
  | put key value =>
      cases hc : u.map.self.changes with
      | none =>
          rw [answer_put_none hc] at hgo
          cases hgo
          simp [MapError.OfSession]
      | some changes =>
          rw [answer_put_some hc] at hgo
          cases hgo
          simp
  | finish =>
      cases hc : u.map.self.changes with
      | none =>
          rw [answer_finish_none hc] at hgo
          cases hgo
          simp [MapError.OfSession]
      | some changes =>
          cases changes with
          | nil =>
              rw [answer_finish_empty hc] at hgo
              cases hgo
              simp
          | cons c changes =>
              rw [answer_finish_cons hc] at hgo
              cases hgo
              simp

theorem Phase.concludes (h : Phase u) {r : Except MapError Unit} (hc : u.Concludes r u') :
    (∀ e, r = .error e → ¬ e.OfSession) ∧ u'.sessions = 0 ∧
      ∃ u'', u'.answer .start = (.returned (.ok ()), u'') := by
  cases hc with
  | empty hsome hgo =>
      obtain ⟨changes, hc⟩ := Option.isSome_iff_exists.mp hsome
      obtain ⟨-, hf⟩ := h.open_of_some hc
      cases changes with
      | nil =>
          rw [answer_finish_empty hc, hf] at hgo
          cases hgo
          exact ⟨nofun, rfl, answer_start_ok rfl⟩
      | cons c changes =>
          rw [answer_finish_cons hc] at hgo
          cases hgo
  | flushed hf hstep =>
      obtain ⟨rfl, rfl, -, hc, hn⟩ := h.sole_flush hf
      obtain ⟨hbusy, hchanges, -, herror⟩ := Flush.step_done hn hstep
      exact ⟨herror, by simp [sessions, hchanges, hc], answer_start_ok hbusy⟩

/--
In every interleaving there is at most one session, open or being written. A start is refused while
there is one, a put and an end while no change set is open, and what is refused changes nothing. The
calls that succeed are those of sessions one after another, each end taking what was put since the
start. Once it is over, well or not, the next session can be started.
-/
theorem Run.exclusive (h : Run K directory name mapSize u trace) :
    u.sessions ≤ 1 ∧
    (∀ call reply u', u.answer call = (reply, u') →
      (reply = .returned (.error .sessionActive) ↔ call = .start ∧ u.sessions = 1) ∧
      (reply = .returned (.error .noSession) ↔ call ≠ .start ∧ u.map.self.changes = none) ∧
      ∀ e, reply = .returned (.error e) → e.OfSession ∧ u' = u) ∧
    Told u.map.self (trace.filterMap effect?) ∧
    (∀ r u', u.Concludes r u' → (∀ e, r = .error e → ¬ e.OfSession) ∧ u'.sessions = 0 ∧
      ∃ u'', u'.answer .start = (.returned (.ok ()), u'')) ∧
    ∀ f ∈ u.flushes, ∃ r s' u'', f.run u.map = (r, s') ∧
      answer ⟨s', []⟩ .start = (.returned (.ok ()), u'') := by
  have hs := h.sound
  refine ⟨hs.phase.sessions_le, fun call reply u' => hs.phase.refused, hs.told,
    fun r u' => hs.phase.concludes, fun f hf => ?_⟩
  obtain ⟨front, rest, hf⟩ := List.append_of_mem hf
  obtain ⟨-, -, -, -, hn⟩ := hs.phase.sole_flush hf
  obtain ⟨u'', hgo⟩ := answer_start_ok (Flush.run_done (s := u.map) hn).1
  exact ⟨_, _, u'', rfl, hgo⟩

/--
A merge comes between the steps of a flush, whose changes are the last put of its only key; puts and
starts are refused meanwhile.
-/
theorem exclusive_during_flush :
    ∃ (u : SharedMap UInt64) (trace : List (Call UInt64 × Reply UInt64)) (f : Flush UInt64),
      Run UInt64 [] "x" 100 u trace ∧ u.flushes = [f] ∧
      trace.filterMap effect? = [.started, .put 7 1, .put 7 2, .took f.todo] ∧
      Told u.map.self [.started, .put 7 1, .put 7 2, .took f.todo] ∧
      (u.answer .start).1 = .returned (.error .sessionActive) ∧
      (u.answer (.put 8 1)).1 = .returned (.error .noSession) := by
  have hok : (PagedMap.init UInt64 [] "x" 100 ⟨{}, 0, []⟩).1.toOption.isSome := by decide +kernel
  rcases hinit : PagedMap.init UInt64 [] "x" 100 ⟨{}, 0, []⟩ with ⟨r, host⟩
  rw [hinit] at hok
  cases r with
  | error e => cases hok
  | ok m =>
      have hb : m.busy = false := (PagedMap.of_init hinit).2.1
      have h := (Run.opened hinit).called .start
      rw [answer_start_free hb] at h
      replace h := h.called (.put 7 1)
      rw [answer_put_some rfl] at h
      replace h := h.called (.put 7 2)
      rw [answer_put_some rfl] at h
      replace h := h.called .finish
      rw [@answer_finish_cons _ _ _ _ ((m.place 7).2, [(7, 2)]) []
        (by simp [ChangeSet.insert, ChangeSet.setValue, MapState.update, MapState.count,
          PagedMap.place])] at h
      replace h := h.elsewhere (.merge 0 _)
      have hnone {s : MapState UInt64} (hs : s.self.changes = none) :
          (PagedMap.merge 0 s).2.self.changes = none := (Elsewhere.merge 0 s).changes.trans hs
      obtain ⟨-, hanswers, htold, -⟩ := Run.exclusive h
      refine ⟨_, _, _, h, rfl, rfl, htold, (hanswers .start _ _ rfl).1.mpr ⟨rfl, ?_⟩,
        (hanswers (.put 8 1) _ _ rfl).2.1.mpr ⟨by simp, hnone rfl⟩⟩
      rw [sessions, hnone rfl]
      rfl

end SharedMap

end MeteredStorage
