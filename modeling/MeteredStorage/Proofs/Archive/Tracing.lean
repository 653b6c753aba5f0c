import MeteredStorage.Proofs.Archive.Shelf

namespace MeteredStorage

namespace Volume

theorem Stored.location {d : Disk} {v : Volume} (h : v.Stored d) {e : Entry} (he : e ∈ v.entries) :
    Location.segment? e.location = some v.segment.index ∧ e.location ≠ 0 := by
  obtain ⟨p, hp, rfl⟩ := mem_entries.mp he
  exact ⟨Location.segment?_pack h.index_lt (h.offset_lt hp),
    Location.pack_ne_zero h.index_lt (h.offset_lt hp)⟩

end Volume

namespace Archive

variable {a a' : Archive} {d : Disk} {u v w : Volume} {vs vs' ws : List Volume} {e f : Entry}
  {r : Record} {l : Int64}

theorem Holds.entry_unique (h : Holds a d vs) (hu : u ∈ vs) (hv : v ∈ vs) (he : e ∈ u.entries)
    (hf : f ∈ v.entries) (hl : e.location = f.location) : u = v ∧ e = f := by
  have hus := h.stored u hu
  have hvs := h.stored v hv
  have hindex : u.segment.index = v.segment.index := by
    have hi := (hus.location he).1
    rw [hl, (hvs.location hf).1] at hi
    exact (Option.some.inj hi).symm
  obtain rfl := h.eq_of_index hu hv hindex
  refine ⟨rfl, ?_⟩
  obtain ⟨p, hp, rfl⟩ := Volume.mem_entries.mp he
  obtain ⟨q, hq, rfl⟩ := Volume.mem_entries.mp hf
  have hoffset : p.offset = q.offset := by
    have ho := congrArg Location.offset hl
    rwa [Location.offset_pack hus.index_lt (hus.offset_lt hp),
      Location.offset_pack hus.index_lt (hus.offset_lt hq)] at ho
  rcases cases_of_pairwise (Record.place_offsets_lt 0 u.records) hp hq with rfl | hlt | hlt
  · rfl
  · exact absurd hlt (by omega)
  · exact absurd hlt (by omega)

def Gone (a : Archive) (vs : List Volume) (l : Int64) : Prop :=
  ∃ index, Location.segment? l = some index ∧ index.toNat < a.nextIndex.toNat ∧
    ∀ v ∈ vs, v.segment.index ≠ index

/-- A location at which `r` was found: it is still there, or its volume is gone. -/
def Traced (a : Archive) (vs : List Volume) (l : Int64) (r : Record) : Prop :=
  ⟨r, l⟩ ∈ Volume.allEntries vs ∨ Gone a vs l

/-- What may become of volumes while an archive is in use. -/
structure Evolves (a : Archive) (vs : List Volume) (a' : Archive) (vs' : List Volume) : Prop where
  next_le : a.nextIndex.toNat ≤ a'.nextIndex.toNat
  stays : ∀ v ∈ vs, (∃ v' ∈ vs', v'.segment.index = v.segment.index ∧ v.entries ⊆ v'.entries) ∨
    v.segment.index.toNat < a'.nextIndex.toNat ∧ ∀ v' ∈ vs', v'.segment.index ≠ v.segment.index
  comes : ∀ v' ∈ vs', (∃ v ∈ vs, v.segment.index = v'.segment.index) ∨
    a.nextIndex.toNat ≤ v'.segment.index.toNat

theorem Gone.evolves (h : Gone a vs l) (he : Evolves a vs a' vs') : Gone a' vs' l := by
  obtain ⟨index, hl, hlt, hnone⟩ := h
  refine ⟨index, hl, Nat.lt_of_lt_of_le hlt he.next_le, fun v' hv' hi => ?_⟩
  rcases he.comes v' hv' with ⟨v, hv, hindex⟩ | hle
  · exact hnone v hv (hindex.trans hi)
  · rw [hi] at hle
    exact absurd hle (Nat.not_le.mpr hlt)

theorem Traced.evolves (h : Traced a vs l r) (hh : Holds a d vs) (he : Evolves a vs a' vs') :
    Traced a' vs' l r := by
  rcases h with hm | hg
  · obtain ⟨v, hv, hentry⟩ := Volume.mem_allEntries.mp hm
    rcases he.stays v hv with ⟨v', hv', -, hsub⟩ | hgone
    · exact .inl (Volume.mem_allEntries.mpr ⟨v', hv', hsub hentry⟩)
    · exact .inr ⟨v.segment.index, ((hh.stored v hv).location hentry).1, hgone⟩
  · exact .inr (hg.evolves he)

theorem Gone.not_mem (h : Gone a vs l) (hh : Holds a d vs) :
    ⟨r, l⟩ ∉ Volume.allEntries vs := by
  intro hm
  obtain ⟨v, hv, hentry⟩ := Volume.mem_allEntries.mp hm
  obtain ⟨index, hl, -, hnone⟩ := h
  have hi := ((hh.stored v hv).location hentry).1
  rw [hl] at hi
  exact hnone v hv (Option.some.inj hi).symm

theorem Evolves.trans {a'' : Archive} {vs'' : List Volume} (h : Evolves a vs a' vs')
    (h' : Evolves a' vs' a'' vs'') : Evolves a vs a'' vs'' where
  next_le := Nat.le_trans h.next_le h'.next_le
  stays := by
    -- An index that is gone after the first part does not come back in the second.
    have hgone {index : UInt32} (hlt : index.toNat < a'.nextIndex.toNat)
        (hnone : ∀ v' ∈ vs', v'.segment.index ≠ index) :
        index.toNat < a''.nextIndex.toNat ∧ ∀ v'' ∈ vs'', v''.segment.index ≠ index := by
      refine ⟨Nat.lt_of_lt_of_le hlt h'.next_le, fun v'' hv'' hi => ?_⟩
      rcases h'.comes v'' hv'' with ⟨v', hv', hindex⟩ | hle
      · exact hnone v' hv' (hindex.trans hi)
      · rw [hi] at hle
        exact absurd hle (Nat.not_le.mpr hlt)
    intro v hv
    rcases h.stays v hv with ⟨v', hv', hi, hsub⟩ | ⟨hlt, hnone⟩
    · rcases h'.stays v' hv' with ⟨v'', hv'', hi', hsub'⟩ | ⟨hlt, hnone⟩
      · exact .inl ⟨v'', hv'', hi'.trans hi, fun _ he => hsub' (hsub he)⟩
      · rw [hi] at hlt hnone
        exact .inr ⟨hlt, hnone⟩
    · exact .inr (hgone hlt hnone)
  comes := by
    intro v'' hv''
    rcases h'.comes v'' hv'' with ⟨v', hv', hi⟩ | hle
    · rcases h.comes v' hv' with ⟨v, hv, hi'⟩ | hle
      · exact .inl ⟨v, hv, hi'.trans hi⟩
      · rw [hi] at hle
        exact .inr hle
    · exact .inr (Nat.le_trans h.next_le hle)

theorem Evolves.of_perm (hnext : a.nextIndex.toNat ≤ a'.nextIndex.toNat) (hp : vs.Perm vs') :
    Evolves a vs a' vs' where
  next_le := hnext
  stays v hv := .inl ⟨v, hp.mem_iff.mp hv, rfl, fun _ h => h⟩
  comes v' hv' := .inl ⟨v', hp.mem_iff.mpr hv', rfl⟩

theorem Evolves.added (hnext : a.nextIndex.toNat ≤ a'.nextIndex.toNat)
    (hv : v.segment.index = a.nextIndex) (hp : (v :: vs).Perm vs') : Evolves a vs a' vs' where
  next_le := hnext
  stays u hu := .inl ⟨u, hp.mem_iff.mp (List.mem_cons_of_mem _ hu), rfl, fun _ h => h⟩
  comes v' hv' := by
    rcases List.mem_cons.mp (hp.mem_iff.mpr hv') with rfl | hm
    · exact .inr (Nat.le_of_eq (by rw [hv]))
    · exact .inl ⟨v', hm, rfl⟩

theorem Evolves.replaced (hnext : a.nextIndex.toNat ≤ a'.nextIndex.toNat)
    (hi : w.segment.index = v.segment.index) (hsub : v.entries ⊆ w.entries)
    (hp : vs.Perm (v :: ws)) (hp' : (w :: ws).Perm vs') : Evolves a vs a' vs' where
  next_le := hnext
  stays u hu := by
    rcases List.mem_cons.mp (hp.mem_iff.mp hu) with rfl | hm
    · exact .inl ⟨w, hp'.mem_iff.mp (List.mem_cons_self ..), hi, hsub⟩
    · exact .inl ⟨u, hp'.mem_iff.mp (List.mem_cons_of_mem _ hm), rfl, fun _ h => h⟩
  comes v' hv' := by
    rcases List.mem_cons.mp (hp'.mem_iff.mpr hv') with rfl | hm
    · exact .inl ⟨v, hp.mem_iff.mpr (List.mem_cons_self ..), hi.symm⟩
    · exact .inl ⟨v', hp.mem_iff.mpr (List.mem_cons_of_mem _ hm), rfl⟩

theorem Evolves.removed (hh : Holds a d vs) (hnext : a.nextIndex.toNat ≤ a'.nextIndex.toNat)
    (hp : vs.Perm (v :: vs')) : Evolves a vs a' vs' where
  next_le := hnext
  stays u hu := by
    rcases List.mem_cons.mp (hp.mem_iff.mp hu) with rfl | hm
    · refine .inr ⟨Nat.lt_of_lt_of_le (hh.index_lt u hu) hnext, fun v' hv' hi => ?_⟩
      have hapart := (List.pairwise_cons.mp (hh.perm hp).apart).1 v' hv'
      exact hapart.index hi.symm
    · exact .inl ⟨u, hm, rfl, fun _ h => h⟩
  comes v' hv' := .inl ⟨v', hp.mem_iff.mpr (List.mem_cons_of_mem _ hv'), rfl⟩

end Archive

end MeteredStorage
