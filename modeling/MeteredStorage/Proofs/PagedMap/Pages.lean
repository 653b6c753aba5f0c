import MeteredStorage.Proofs.PagedMap.Paging

namespace MeteredStorage

variable {K : Type} [FixedKey K]

/-- The bytes are a page of the bucket, with an entry for each of some keys and no other content. -/
structure Page.WellFormed (K : Type) [FixedKey K] (d : Dimensions) (bucket : Nat) (page : Bytes) :
    Prop where
  length : page.length = pageSize
  index : (index page).toInt = bucket
  next : next page = 0
  count_le : (storedCount page).toInt ≤ d.form.perPage
  entries : ∃ keys : List K, keys.Nodup ∧ (storedCount page).toInt = keys.length ∧
    (entries d.form page).map (fun e => (e.hash, e.version, e.key)) =
      keys.map (fun key => (FixedKey.spread (FixedKey.hashCode key), FixedKey.version K,
        FixedKey.write key)) ∧
    ∀ key ∈ keys, (FixedKey.spread (FixedKey.hashCode key)).toUInt32.toNat &&& (d.buckets - 1) = bucket
  tail : page.drop (d.form.entryOffset (storedCount page).toInt.toNat) =
    Bytes.zeros (pageSize - d.form.entryOffset (storedCount page).toInt.toNat)

/-- The number of buckets is a power of two, so the bucket of a hash is its low bits. -/
theorem bucketOf_eq_mask {mapSize : UInt64} {d : Dimensions}
    (h : PagedMap.dimensionsFor K mapSize = .ok d) (hash : Int32) :
    hash.toUInt32.toNat &&& (d.buckets - 1) = d.bucketOf hash := by
  obtain ⟨form, -, hd⟩ : ∃ form, PageForm.ofKeySize (FixedKey.size K) = .ok form ∧
      Dimensions.ofMapSize form mapSize = .ok d := by
    cases hform : PageForm.ofKeySize (FixedKey.size K) with
    | error e => simp [PagedMap.dimensionsFor, hform, bind, Except.bind] at h
    | ok form => exact ⟨form, rfl, by simpa [PagedMap.dimensionsFor, hform, bind, Except.bind] using h⟩
  simp only [Dimensions.ofMapSize] at hd
  split at hd
  · cases hd
  · cases hd
    rw [Dimensions.bucketOf, Nat.one_shiftLeft, Nat.and_two_pow_sub_one_eq_mod]

variable {d : Dimensions} {bucket : Nat} {bs : Bindings K}

theorem Page.next_image (f : PageForm) (bucket : Nat) (bs : Bindings K) :
    next (image f bucket bs) = 0 := by
  have hslice : Bytes.slice 8 8 (image f bucket bs) = Bytes.zeros 8 := by
    rw [image, ← List.append_assoc, Bytes.slice, List.drop_left' (by simp),
      List.take_left' (Bytes.length_zeros 8)]
  rw [next, hslice]
  decide

variable [DecidableEq K] [LawfulKey K]

theorem Page.tail_image {f : PageForm} (hf : f.keySize = FixedKey.size K) (bucket : Nat)
    (bs : Bindings K) : (image f bucket bs).drop (f.entryOffset bs.length) =
      Bytes.zeros (pageSize - f.entryOffset bs.length) := by
  rw [image, ← List.append_assoc, ← List.append_assoc, ← List.append_assoc]
  refine List.drop_left' ?_
  simp only [List.length_append, length_entries hf, Bytes.length_zeros, BigEndian.length_encode,
    PageForm.entryOffset, PageForm.headerSize]

theorem Resident.wellFormed (h : Resident d bucket bs) (hd : Shaped K d)
    (hmask : ∀ hash : Int32, hash.toUInt32.toNat &&& (d.buckets - 1) = d.bucketOf hash) :
    Page.WellFormed K d bucket (Page.image d.form bucket bs) := by
  have hcount : (Page.storedCount (Page.image d.form bucket bs)).toInt = bs.length :=
    Page.toInt_storedCount_image h.room
  refine ⟨Page.length_image hd.keySize h.room, Page.toInt_index_image (hd.lt h.bucket_lt),
    Page.next_image .., ?_, ⟨bs.map Prod.fst, h.keys, ?_, ?_, ?_⟩, ?_⟩
  · rw [hcount]
    exact Int.ofNat_le.mpr h.room
  · rw [hcount, List.length_map]
  · rw [Page.entries_image hd.keySize h.room, List.map_map, List.map_map]
    rfl
  · intro key hk
    obtain ⟨c, hc, rfl⟩ := List.mem_map.mp hk
    rw [hmask, h.placed c hc]
  · rw [hcount, Int.toNat_natCast]
    exact Page.tail_image hd.keySize bucket bs

/--
Every bucket on disk is well formed at every moment, whatever sessions, merges and reopenings there
have been and however they have ended: what a replay visits is the pages of the map.
-/
theorem Used.pages_wellFormed {directory : Path} {name : String} {mapSize : UInt64} {s : MapState K}
    (h : Used K directory name mapSize s) :
    (s.self.archive.replay s.host.disk).2 = .ok () ∧
      ∀ visit ∈ (s.self.archive.replay s.host.disk).1, ∃ bucket page,
        bucket < s.self.dimensions.buckets ∧ visit.1.toInt = bucket ∧
        (∀ room, pageSize ≤ room →
          s.self.archive.fetch s.host.disk visit.2 .data room = .ok page) ∧
        Page.WellFormed K s.self.dimensions bucket page := by
  obtain ⟨d, hp⟩ := h.paginated
  have hd := hp.shaped
  obtain ⟨es, hreplay, hes⟩ := hp.houses.replay_run (Record.IsPage.size hd)
  replace hreplay : s.self.archive.replay s.host.disk =
      (es.map fun e => (e.record.key, e.location), .ok ()) := hreplay
  rw [hp.dimensions, hreplay]
  refine ⟨rfl, fun visit hvisit => ?_⟩
  obtain ⟨e, he, rfl⟩ := List.mem_map.mp hvisit
  -- Every record on disk is the image of a list of bindings; merges copy it as it is.
  obtain ⟨⟨bucket, bs, hr, hrecord⟩, -, hfetch⟩ := hes e he
  have hdata : e.record.data = Page.image d.form bucket bs := congrArg Record.data hrecord
  rw [hdata, Page.length_image hd.keySize hr.room] at hfetch
  refine ⟨bucket, _, hr.bucket_lt, ?_, hfetch, hr.wellFormed hd (bucketOf_eq_mask hp.suited)⟩
  rw [hrecord]
  exact toInt_bucketKey (hd.lt hr.bucket_lt)

/-- A page that has been changed and then copied by a merge. -/
theorem pages_wellFormed_after_merge :
    ∃ (s : MapState UInt64) (location : Int64) (page : Bytes), Used UInt64 [] "x" 100 s ∧
      (3, location) ∈ (s.self.archive.replay s.host.disk).1 ∧
      s.self.archive.fetch s.host.disk location .data pageSize = .ok page ∧
      Page.WellFormed UInt64 s.self.dimensions 3 page := by
  have hmerged : (PagedMap.scenario UInt64 "x" 100 [.start, .put 7 1, .finish, .start, .put 7 3,
      .finish, .merge 1000000]).any fun s =>
        (s.self.archive.replay s.host.disk).1.any fun visit => visit.1 == 3 := by
    decide +kernel
  obtain ⟨s, hs, hany⟩ := (Option.any_eq_true ..).mp hmerged
  obtain ⟨⟨key, location⟩, hvisit, hkey⟩ := List.any_eq_true.mp hany
  obtain rfl : key = 3 := beq_iff_eq.mp hkey
  have hu : Used UInt64 [] "x" 100 s := used_of_scenario hs
  obtain ⟨-, hpages⟩ := Used.pages_wellFormed hu
  obtain ⟨bucket, page, -, hbucket, hfetch, hpage⟩ := hpages _ hvisit
  obtain rfl : bucket = 3 := (Int.ofNat.inj hbucket).symm
  exact ⟨s, location, page, hu, hvisit, hfetch pageSize (Nat.le_refl _), hpage⟩

end MeteredStorage
