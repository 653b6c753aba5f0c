import MeteredStorage.Proofs.Archive.Recovery
import MeteredStorage.Proofs.Bytes

namespace MeteredStorage

def Segment.InData (s : Segment) (d : Disk) (offset length : Nat) : Prop :=
  ∃ p ∈ (s.records d).1, p.offset + Record.headerSize ≤ offset ∧
    offset + length ≤ p.offset + p.record.size

instance (s : Segment) (d : Disk) (offset length : Nat) : Decidable (s.InData d offset length) :=
  inferInstanceAs (Decidable (∃ p ∈ (s.records d).1, p.offset + Record.headerSize ≤ offset ∧
    offset + length ≤ p.offset + p.record.size))

namespace Volume

variable {d : Disk} {v : Volume} {offset : Nat} {bytes : Bytes}

/-- A write into the data of a record changes that data and nothing else. -/
theorem Stored.damaged (h : v.Stored d) (hc : v.segment.isComplete)
    (hin : v.segment.InData d offset bytes.length) :
    ∃ v' : Volume, v'.Stored (d.changed (.write v.segment.slot offset bytes)) ∧
      v'.segment = v.segment ∧ v'.visits = v.visits := by
  obtain ⟨p, hp, hlow, hhigh⟩ := hin
  rw [h.records_run hc] at hp
  obtain ⟨before, after, hrecords, hoffset⟩ := Record.mem_place hp
  rw [Nat.zero_add] at hoffset
  obtain ⟨k, rfl⟩ := Nat.exists_eq_add_of_le hlow
  have hk : k + bytes.length ≤ p.record.data.length := by
    rw [Record.size] at hhigh
    omega
  let r : Record := ⟨p.record.key, Bytes.overlay k bytes p.record.data⟩
  have hlength : r.data.length = p.record.data.length := Bytes.length_overlay_of_le hk
  have hsize : r.size = p.record.size := by rw [Record.size, Record.size, hlength]
  let v' : Volume := ⟨v.segment, before ++ r :: after⟩
  have hdataSize : v'.dataSize = v.dataSize := by
    simp only [v', dataSize, hrecords, Record.sizeAll_append, Record.sizeAll, hsize]
  refine ⟨v', ?_, rfl, ?_⟩
  · have hframe := Disk.changed_write d v.segment.slot (p.offset + Record.headerSize + k) bytes
    exact {
      file := h.file.mono hframe.keeps fun _ hn => hn
      slot_lt := Nat.lt_of_lt_of_le h.slot_lt hframe.length
      content := by
        let header := BigEndian.ofInt64 p.record.key ++
          BigEndian.ofWord32 (UInt32.ofNat p.record.data.length)
        have hfront : (Record.encodeAll before ++ header).length = p.offset + Record.headerSize := by
          simp [header, Record.length_encodeAll, hoffset, Record.headerSize]
        have hsplit (data rest : Bytes) (hl : data.length = p.record.data.length) :
            Record.encodeAll (before ++ ⟨p.record.key, data⟩ :: after) ++ rest =
              (Record.encodeAll before ++ header) ++
                (data ++ (Record.encodeAll after ++ rest)) := by
          simp [Record.encodeAll, Record.encode, header, hl]
        rw [Disk.content_write h.slot_lt, h.content, Volume.bytes, Volume.bytes, hdataSize, hrecords,
          hsplit _ _ hlength, ← Bytes.overlay_inside hk, hfront]
        exact congrArg _ (hsplit p.record.data _ rfl)
      index_lt := h.index_lt
      size_le := hdataSize ▸ h.size_le
      fits := by
        have hfits := h.fits
        rw [hrecords] at hfits
        intro s hs
        rcases List.mem_append.mp hs with hs | hs
        · exact hfits s (List.mem_append_left _ hs)
        · rcases List.mem_cons.mp hs with rfl | hs
          · rw [Record.Fits, hlength]
            exact hfits p.record (by simp)
          · exact hfits s (List.mem_append_right _ (List.mem_cons_of_mem _ hs))
      footer := by
        intro f hf
        have hd := h.footer f hf
        refine ⟨hd.index, ?_, hd.dataSize.trans hdataSize.symm, hd.session⟩
        rw [hd.items, hrecords]
        simp [v'] }
  · simp only [visits, entries, v', hrecords, Record.place_append, Record.place, hsize, List.map_append,
      List.map_cons]
    rfl

end Volume

namespace Archive

variable {a : Archive} {d : Disk} {line : List Volume} {offset : Nat} {bytes : Bytes}

theorem Shelved.damaged (h : Shelved a d line [] none) {t : Segment} (ht : t ∈ a.completed)
    (hin : t.InData d offset bytes.length) :
    ∃ line', Shelved a (d.changed (.write t.slot offset bytes)) line' [] none ∧
      line'.map Volume.segment = line.map Volume.segment ∧
      line'.map Volume.visits = line.map Volume.visits := by
  rw [h.completed_eq] at ht
  obtain ⟨v, hv, rfl⟩ := List.mem_map.mp ht
  obtain ⟨hstored, hcomplete⟩ := h.mem_line hv
  obtain ⟨v', hstored', hsegment, hvisits⟩ := hstored.damaged hcomplete hin
  obtain ⟨front, back, rfl⟩ := List.append_of_mem hv
  have hmap : (front ++ v' :: back).map Volume.segment = (front ++ v :: back).map Volume.segment := by
    simp [hsegment]
  have hkept := h.kept
  rw [Option.toList_none, List.nil_append, List.append_nil] at hkept
  have hfirst := hkept.perm List.perm_middle
  have hframe := Disk.changed_write d v.segment.slot offset bytes
  obtain ⟨n, hhoused⟩ := hfirst.housed
  refine ⟨front ++ v' :: back, ⟨?_, fun u hu => ?_, by simp, h.writer, ?_⟩, hmap, ?_⟩
  · rw [Option.toList_none, List.nil_append, List.append_nil]
    refine Kept.perm ⟨hfirst.holds.replace hframe rfl rfl rfl ?_ hstored' ?_ ?_ ?_ ?_, n,
      hhoused.keep hframe.keeps rfl ?_⟩ List.perm_middle.symm
    · rw [hsegment]
      exact hfirst.holds.segments
    all_goals simp [hsegment, Volume.listing]
  · rw [List.append_nil] at hu
    have hcompletes (s : Segment) (hs : s ∈ (front ++ v :: back).map Volume.segment) :
        s.isComplete := by
      obtain ⟨w, hw, rfl⟩ := List.mem_map.mp hs
      exact h.complete w (List.mem_append_left _ hw)
    exact hcompletes u.segment (hmap ▸ List.mem_map_of_mem hu)
  · have hr := h.ranked
    rw [Option.toList_none, List.append_nil] at hr ⊢
    rw [hmap]
    exact hr
  · simp [hvisits]

end Archive

end MeteredStorage
