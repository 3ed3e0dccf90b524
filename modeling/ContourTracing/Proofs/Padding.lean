import ContourTracing.Proofs.Coverage
import ContourTracing.Proofs.Translation

/-!
# The rim as background

Unset pixels may be added around a mask: everything outside the rectangle counts as unset anyway.
At the rim the searches and the choice of a step take paths of their own, and inside the wider
mask they do not; the tours that come out are the same, moved by the columns added to the left
and the rows added above.
-/

namespace ContourTracing

namespace Mask

variable {mask mask' : Mask} {v : Pixel}

/-- Pixels that are set alike up to a vector have the same boundaries up to that vector. -/
theorem isTranslate_of_isSet (connectivity : Connectivity)
    (h : ∀ p : Pixel, mask'.isSet (p + v).1 (p + v).2 = mask.isSet p.1 p.2) :
    mask.IsTranslate connectivity mask' connectivity v where
  isBoundary_iff s := by
    have hpixel := h s.pixel
    rw [← s.pixel_translate] at hpixel
    rw [IsBoundary, IsBoundary, s.across_translate, h]
    exact and_congr_left' (by rw [← Bool.eq_iff_iff]; exact hpixel)
  chooseStep_eq s _ := by
    have hturn : mask'.chooseTurn connectivity (s.translate v) =
        mask.chooseTurn connectivity s := by
      simp only [chooseTurn, s.ahead_translate, s.aheadAcross_translate, h]
    rw [chooseStep, hturn, chooseStep, Position.translate_side]

/-- The mask with so many unset columns to the left and to the right of it and so many unset rows
above and below it. -/
def pad (mask : Mask) (left top right bottom : ℕ) : Mask where
  width := left + mask.width + right
  height := top + mask.height + bottom
  bits := Array.ofFn fun i : Fin ((left + mask.width + right) * (top + mask.height + bottom)) ↦
    let column := i.val % (left + mask.width + right)
    let row := i.val / (left + mask.width + right)
    mask.isSet (column - left) (row - top)
  size_bits := Array.size_ofFn

variable (mask : Mask) (left top right bottom : ℕ)

theorem bit_pad {n : ℕ} (h : n < (mask.pad left top right bottom).size) :
    (mask.pad left top right bottom).bit n =
      mask.isSet ((n % (mask.pad left top right bottom).width : ℕ) - left)
        ((n / (mask.pad left top right bottom).width : ℕ) - top) := by
  rw [bit, Array.getD_eq_getD_getElem?]
  exact congrArg (·.getD false) (Array.getElem?_ofFn.trans (dif_pos h))

theorem isSet_pad (p : Pixel) : (mask.pad left top right bottom).isSet p.1 p.2 =
    mask.isSet (p.1 - left) (p.2 - top) := by
  by_cases h : (mask.pad left top right bottom).Contains p.1 p.2
  · rw [← bit_index h, bit_pad _ _ _ _ _ (index_lt_size h), index_mod_width h, index_div_width h,
      Int.toNat_of_nonneg h.1, Int.toNat_of_nonneg h.2.2.1]
  · rw [isSet_of_not_contains _ h, isSet_of_not_contains]
    rintro ⟨hx, hw, hy, hh⟩
    simp only [Contains, pad] at h
    omega

example : (Mask.pad ⟨1, 1, #[true], rfl⟩ 1 0 0 1).bits = #[false, true, false, false] := by
  decide

theorem isTranslate_pad (connectivity : Connectivity) :
    mask.IsTranslate connectivity (mask.pad left top right bottom) connectivity (left, top) := by
  apply isTranslate_of_isSet
  intro p
  rw [isSet_pad]
  simp

end Mask

namespace Tracer

/-- On a mask with unset columns and rows added around it the loop of any mode makes the same
tours, one from each stop, moved by what is added to the left and above. -/
theorem exists_tours_pad {tracer padded : Tracer} {mode : ScanMode} {left top right bottom : ℕ}
    (h : tracer.IsFreshFor mode) (hpadded : padded.IsFreshFor mode)
    (hmask : padded.mask = tracer.mask.pad left top right bottom)
    (hconnectivity : padded.connectivity = tracer.connectivity) :
    ∃ tours last last', tracer.Loop tours last ∧
      (∀ s, s ∈ tours.map (·.start) ↔ tracer.mask.IsStop tracer.connectivity s mode) ∧
      padded.Loop (tours.map (·.translate (left, top))) last' := by
  obtain ⟨last, hloop⟩ := h.exists_loop
  obtain ⟨last', hloop'⟩ := hpadded.exists_loop
  refine ⟨_, last, last', hloop, fun s ↦ Mask.mem_map_start_tours, ?_⟩
  rwa [hmask, hconnectivity, (Mask.isTranslate_pad ..).tours_eq] at hloop'

theorem exists_tours_pad_target :
    let mask := Mask.target.pad 2 1 0 3
    let tracer := new .target .null .diagonal (.fresh Mask.target.size .all)
    let padded := new mask .null .diagonal (.fresh mask.size .all)
    tracer.IsFreshFor .all ∧ padded.IsFreshFor .all ∧
      ∃ tours last last', tracer.Loop tours last ∧
        (∀ s, s ∈ tours.map (·.start) ↔ Mask.target.IsStop .diagonal s .all) ∧
        padded.Loop (tours.map (·.translate (2, 1))) last' :=
  have h := isFreshFor_new .target .null .diagonal .all
  have hpadded := isFreshFor_new (Mask.target.pad 2 1 0 3) .null .diagonal .all
  ⟨h, hpadded, exists_tours_pad h hpadded rfl rfl⟩

end Tracer

end ContourTracing
