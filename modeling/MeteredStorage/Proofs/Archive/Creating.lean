import MeteredStorage.Proofs.Archive.Lodging
import MeteredStorage.Proofs.Segment.Length

namespace MeteredStorage

namespace Path

theorem size_concat (outer : Path) (last : String) :
    size (outer ++ [last]) = size outer + (last.utf8ByteSize + 1) := by
  induction outer with
  | nil => simp [size]
  | cons piece outer ih =>
      have hcons (path : Path) : size (piece :: path) = piece.utf8ByteSize + 1 + size path := rfl
      rw [List.cons_append, hcons, hcons, ih, ← Nat.add_assoc]

theorem hasNul_concat (outer : Path) (last : String) :
    hasNul (outer ++ [last]) = (hasNul outer || last.toList.contains (Char.ofNat 0)) := by
  simp [hasNul, List.any_append]

end Path

namespace Disk

variable {d : Disk} {outer : Path} {last other : String} {trail : Trail}

theorem target_concat_of_walk (hempty : last ≠ "") (hdot : last ≠ ".") (hup : last ≠ "..")
    (ha : admitPath (outer ++ [last]) = .ok ()) (hw : d.walk [] outer = .ok trail) :
    d.target (outer ++ [last]) = .ok (.name trail last false) := by
  have hreversed : (outer ++ [last]).reverse.dropWhile (· = "") = last :: outer.reverse := by
    simp [hempty]
  have ht := target_of_walk ha hreversed (by rw [List.reverse_reverse]; exact hw)
  simpa [hempty, hdot, hup] using ht

theorem admitPath_concat (hsize : last.utf8ByteSize = other.utf8ByteSize)
    (hnul : last.toList.contains (Char.ofNat 0) = other.toList.contains (Char.ofNat 0)) :
    admitPath (outer ++ [last]) = admitPath (outer ++ [other]) := by
  simp only [admitPath, Path.hasNul_concat, Path.size_concat, hsize, hnul]

end Disk

namespace Archive

open SegmentName (Plain)

variable {directory : Path} {name : String} {d : Disk} {n : Nat} {i : UInt32} {f : ListedFile}
  {fs : List ListedFile}

theorem Lodges.node?_eq_none (h : Lodges directory name n fs d)
    (hfree : ∀ g ∈ ListedFile.all name (d.entries n), g.index ≠ i) {trail : Trail}
    (hnum : Trail.number trail = n) :
    d.node? (Trail.place trail (SegmentName.ofIndex name i)) = none := by
  cases hnode : d.node? (Trail.place trail (SegmentName.ofIndex name i)) with
  | none => rfl
  | some node =>
      have hmem : (SegmentName.ofIndex name i, node) ∈ d.entries n := hnum ▸ Disk.mem_of_node? hnode
      obtain ⟨slot, rfl⟩ : ∃ slot, node = .file slot := h.flat _ hmem
      refine absurd rfl (hfree ⟨SegmentName.ofIndex name i, slot, i⟩ (List.mem_filterMap.mpr ⟨_, hmem, ?_⟩))
      simp [ListedFile.listed?, SegmentName.index?_ofIndex]

/-- Where one file of the archive lies, that of an index which is not listed can be made. -/
theorem Lodges.vacancy (h : Lodges directory name n fs d) (hn : Plain name) (hf : f ∈ fs)
    (hfi : f.index.toNat < 10 ^ 8) (hi : i.toNat < 10 ^ 8)
    (hfree : ∀ g ∈ ListedFile.all name (d.entries n), g.index ≠ i) :
    ∃ trail, d.target (Path.join directory (SegmentName.ofIndex name i)) =
        .ok (.name trail (SegmentName.ofIndex name i) false) ∧
      d.meaning trail (SegmentName.ofIndex name i) = .ok none := by
  have hlodged := h.lodged f (List.mem_append_right _ hf)
  obtain ⟨trail, file, ht, hm⟩ := hlodged.file
  rw [hlodged.named] at ht
  obtain ⟨_, he, hnum⟩ := target_home h.home hn ht
  cases he
  have hsize : (SegmentName.ofIndex name i).utf8ByteSize =
      (SegmentName.ofIndex name f.index).utf8ByteSize := by
    rw [SegmentName.utf8ByteSize_ofIndex name hi, SegmentName.utf8ByteSize_ofIndex name hfi]
  have hnul : (SegmentName.ofIndex name i).toList.contains (Char.ofNat 0) =
      (SegmentName.ofIndex name f.index).toList.contains (Char.ofNat 0) := by
    rw [SegmentName.contains_nul_ofIndex, SegmentName.contains_nul_ofIndex]
  have hproper (text : String) (hmark : '_' ∉ text.toList) : SegmentName.ofIndex name i ≠ text := by
    rintro rfl
    exact hmark (by simp [SegmentName.toList_ofIndex, SegmentName.ending])
  refine ⟨trail, ?_, ?_⟩
  · obtain ⟨hallowed, -⟩ := Disk.target_eq_ok ht
    obtain ⟨reached, hw, he⟩ :=
      target_join (SegmentName.plain_ofIndex hn _) (SegmentName.index?_ofIndex name _) ht
    cases he
    rw [Path.join_plain directory (SegmentName.plain_ofIndex hn _)] at hallowed ⊢
    exact Disk.target_concat_of_walk (hproper "" (by decide)) (hproper "." (by decide))
      (hproper ".." (by decide)) ((Disk.admitPath_concat hsize hnul).trans hallowed) hw
  · obtain ⟨hfits, -⟩ := Disk.meaning_eq_ok hm
    rw [← hsize] at hfits
    rw [Disk.meaning_of_node hfits, h.node?_eq_none hfree hnum]

end Archive

end MeteredStorage
