import Mathlib.Algebra.BigOperators.Group.Finset.Basic
import Mathlib.Algebra.BigOperators.Ring.Finset
import Mathlib.Data.Finset.Card
import ContourTracing.Proofs.Start

/-!
# Depth of pixels

The depth of a pixel is the number of circuits that enclose it. A boundary side of an object's
outer boundary leads one level deeper towards its pixel, a side of a hole's boundary towards the
pixel across. So the depth is odd exactly on objects. The circuits that enclose a pixel are
nested: the outermost of them, and no other, begins at depth one.
-/

namespace ContourTracing

namespace Position

/-- The pixel to the left of a vertical side. -/
def before (s : Position) : Pixel :=
  (s.edge - 1, s.y)

theorem before_left {s : Position} (h : s.side = .left) : s.before = s.across := by
  simp [before, across, edge, Side.outward, h, sub_eq_add_neg]

theorem before_right {s : Position} (h : s.side = .right) : s.before = s.pixel := by
  simp [before, pixel, edge, h]

/-- The sense in which the circuit of a start winds. -/
def orientation (e : Position) : ℤ :=
  if e.side = .left then 1 else -1

end Position

namespace Mask

variable {mask : Mask} {connectivity : Connectivity} {d e s t : Position} {p q : Pixel}

theorem finite_isStart (mask : Mask) (connectivity : Connectivity) :
    {e | mask.IsStart connectivity e}.Finite :=
  mask.finite_isBoundary.subset fun _ he ↦ he.isBoundary

/-- One start for every circuit. -/
noncomputable def starts (mask : Mask) (connectivity : Connectivity) : Finset Position :=
  (mask.finite_isStart connectivity).toFinset

@[simp]
theorem mem_starts : e ∈ mask.starts connectivity ↔ mask.IsStart connectivity e := by
  simp [starts]

/-- The number of circuits that enclose a pixel. -/
noncomputable def depth (mask : Mask) (connectivity : Connectivity) (p : Pixel) : ℕ :=
  {e ∈ mask.starts connectivity | Encloses (mask.circuit connectivity e) p}.card

theorem IsStart.orientation_mul_winding (h : mask.IsStart connectivity e) (p : Pixel) :
    e.orientation * winding (mask.circuit connectivity e) p =
      if Encloses (mask.circuit connectivity e) p then 1 else 0 := by
  rw [h.winding_eq p, Position.orientation]
  split <;> split <;> rfl

theorem depth_eq_sum (mask : Mask) (connectivity : Connectivity) (p : Pixel) :
    (mask.depth connectivity p : ℤ) = ∑ e ∈ mask.starts connectivity,
      e.orientation * winding (mask.circuit connectivity e) p := by
  rw [Finset.sum_congr rfl fun e he ↦ (mem_starts.1 he).orientation_mul_winding p, depth,
    Finset.card_filter]
  push_cast
  rfl

theorem depth_eq_of_winding_eq
    (h : ∀ e, mask.IsStart connectivity e →
      winding (mask.circuit connectivity e) q = winding (mask.circuit connectivity e) p) :
    mask.depth connectivity q = mask.depth connectivity p := by
  unfold depth
  congr 1
  apply Finset.filter_congr
  intro e he
  rw [encloses_iff, encloses_iff, h e (mem_starts.1 he)]

/-- A boundary side leads up or down one level, as its circuit winds. -/
theorem IsStart.depth_across (he : mask.IsStart connectivity e)
    (hs : s ∈ mask.circuit connectivity e) :
    (mask.depth connectivity s.across : ℤ) = mask.depth connectivity s.pixel - e.orientation := by
  have hsb := isBoundary_of_mem_circuit he.isBoundary hs
  have hterm (d : Position) (hd : d ∈ mask.starts connectivity) :
      d.orientation * winding (mask.circuit connectivity d) s.across =
        d.orientation * winding (mask.circuit connectivity d) s.pixel -
          if d = e then e.orientation else 0 := by
    have hd := mem_starts.1 hd
    rw [hd.isCirculation.winding_across_of_isBoundary hsb, count_circuit hd.isBoundary]
    by_cases hde : d = e
    · rw [if_pos hde, hde, if_pos hs]
      push_cast
      ring
    · rw [if_neg hde, if_neg fun hsd ↦ hde (he.eq_of_mem hd hs hsd)]
      simp
  calc
    _ = ∑ d ∈ mask.starts connectivity,
        (d.orientation * winding (mask.circuit connectivity d) s.pixel -
          if d = e then e.orientation else 0) := by
      rw [depth_eq_sum]
      exact Finset.sum_congr rfl hterm
    _ = mask.depth connectivity s.pixel -
        ∑ d ∈ mask.starts connectivity, if d = e then e.orientation else 0 := by
      rw [Finset.sum_sub_distrib, depth_eq_sum]
    _ = _ := by
      rw [Finset.sum_ite_eq' (mask.starts connectivity) e fun _ ↦ e.orientation,
        if_pos (mem_starts.2 he)]

theorem depth_across_eq (h : s.pixel ∈ mask.objectPixels ↔ s.across ∈ mask.objectPixels) :
    mask.depth connectivity s.across = mask.depth connectivity s.pixel :=
  depth_eq_of_winding_eq fun _ he ↦ he.isCirculation.winding_across_eq h

theorem depth_eq_zero_of_not_contains (h : ¬ mask.Contains p.1 p.2) :
    mask.depth connectivity p = 0 := by
  refine Finset.card_eq_zero.2 (Finset.filter_eq_empty_iff.2 fun e he henc ↦ ?_)
  exact h ((mem_starts.1 he).contains_of_encloses henc)

theorem odd_depth_across_iff (connectivity : Connectivity) (hs : mask.IsBoundary s) :
    Odd (mask.depth connectivity s.across) ↔ ¬ Odd (mask.depth connectivity s.pixel) := by
  obtain ⟨e, he, hse⟩ := exists_isStart connectivity hs
  have hstep := he.depth_across hse
  have hone : e.orientation = 1 ∨ e.orientation = -1 := by
    unfold Position.orientation
    split <;> simp
  rw [Nat.odd_iff, Nat.odd_iff]
  omega

/-- A side or its other face is a boundary side if just one of the two pixels is set. -/
theorem isBoundary_or_isBoundary_flip
    (h : ¬ (s.pixel ∈ mask.objectPixels ↔ s.across ∈ mask.objectPixels)) :
    mask.IsBoundary s ∨ mask.IsBoundary s.flip := by
  rw [isBoundary_iff, isBoundary_iff, Position.pixel_flip, Position.across_flip]
  tauto

/-- The depth is odd on objects and even elsewhere. -/
theorem odd_depth_iff (p : Pixel) : Odd (mask.depth connectivity p) ↔ p ∈ mask.objectPixels := by
  obtain ⟨x, y⟩ := p
  induction x using column_induction with
  | left x hx =>
    have hout : ¬ mask.Contains x y := fun h ↦ absurd h.1 (not_le.2 hx)
    rw [depth_eq_zero_of_not_contains (p := (x, y)) hout]
    exact iff_of_false (by decide) fun h ↦ hout (contains_of_mem_objectPixels h)
  | next x ih =>
    let s : Position := ⟨x, y, .right⟩
    have hacross : s.across = (x + 1, y) := Position.across_right rfl
    have hpixel : s.pixel = (x, y) := rfl
    rw [← hpixel] at ih
    rw [← hacross]
    by_cases heq : s.pixel ∈ mask.objectPixels ↔ s.across ∈ mask.objectPixels
    · rw [depth_across_eq heq, ih, heq]
    · have hflip : Odd (mask.depth connectivity s.across) ↔
          ¬ Odd (mask.depth connectivity s.pixel) := by
        rcases isBoundary_or_isBoundary_flip heq with hs | hs
        · exact odd_depth_across_iff connectivity hs
        · have hback := odd_depth_across_iff connectivity hs
          rw [Position.pixel_flip, Position.across_flip] at hback
          tauto
      rw [hflip, ih]
      tauto

namespace IsStart

/-- Entering what a circuit encloses leads one level deeper, and leaving it one level back. -/
theorem depth_past (he : mask.IsStart connectivity e) (hs : s ∈ mask.circuit connectivity e)
    (hv : s.side.isVertical = true) :
    (mask.depth connectivity s.past : ℤ) =
      mask.depth connectivity s.before + if s.side = e.side then 1 else -1 := by
  have hstep := he.depth_across hs
  rcases Position.side_eq_of_isVertical hv with hside | hside
  · rw [Position.past_left hside, Position.before_left hside, hstep, Position.orientation, hside]
    rcases Position.side_eq_of_isVertical he.isVertical with h | h <;> simp [h]
  · rw [Position.past_right hside, Position.before_right hside, hstep, Position.orientation, hside]
    rcases Position.side_eq_of_isVertical he.isVertical with h | h <;> simp [h, sub_eq_add_neg]

theorem depth_past_pos (he : mask.IsStart connectivity e) :
    0 < mask.depth connectivity e.past :=
  Finset.card_pos.2 ⟨e, Finset.mem_filter.2 ⟨mem_starts.2 he, he.encloses_past⟩⟩

/-- A start is an object's exactly if it leads to an odd depth. -/
theorem odd_depth_past_iff (he : mask.IsStart connectivity e) :
    Odd (mask.depth connectivity e.past) ↔ e.side = .left := by
  have hb := isBoundary_iff.1 he.isBoundary
  rw [odd_depth_iff]
  rcases Position.side_eq_of_isVertical he.isVertical with hside | hside
  · exact iff_of_true (Position.past_left hside ▸ hb.1) hside
  · exact iff_of_false (Position.past_right hside ▸ hb.2) (by simp [hside])

/-! ## Nesting -/

theorem earlier_of_slot_lt (he : mask.IsStart connectivity e) (hd : mask.IsStart connectivity d)
    (h : mask.slot d < mask.slot e) : d.y < e.y ∨ d.y = e.y ∧ d.edge < e.edge := by
  have hle := (slot_le_iff hd.isBoundary he.isBoundary hd.isVertical he.isVertical).1 h.le
  by_contra hlate
  have heq := eq_of_edge_eq hd.isBoundary he.isBoundary hd.isVertical he.isVertical (by omega)
    (by omega)
  rw [heq] at h
  omega

/-- A circuit that starts earlier stays outside of a later one. -/
theorem winding_eq_zero_of_earlier (he : mask.IsStart connectivity e)
    (hd : mask.IsStart connectivity d) (h : mask.slot d < mask.slot e)
    (ht : t ∈ mask.circuit connectivity d) :
    winding (mask.circuit connectivity e) t.pixel = 0 := by
  have hne : e ≠ d := fun heq ↦ by
    rw [heq] at h
    omega
  have hearlier := he.earlier_of_slot_lt hd h
  have hedge : d.x ≤ d.edge := by unfold Position.edge; split <;> omega
  calc
    _ = winding (mask.circuit connectivity e) d.pixel := (hd.winding_along he hne ht).1
    _ = 0 := he.winding_eq_zero_of_before (by simp only [Position.pixel]; omega)

/-- An earlier circuit winds alike around all that a later circuit encloses. -/
theorem winding_eq_of_encloses (he : mask.IsStart connectivity e)
    (hd : mask.IsStart connectivity d) (h : mask.slot d < mask.slot e)
    (hq : Encloses (mask.circuit connectivity e) q) :
    winding (mask.circuit connectivity d) q = winding (mask.circuit connectivity d) e.pixel := by
  have hne : d ≠ e := fun heq ↦ by
    rw [heq] at h
    omega
  obtain ⟨x, y⟩ := q
  induction x using column_induction with
  | left x hx =>
    exact absurd (he.contains_of_encloses hq).1 (not_le.2 hx)
  | next x ih =>
    have hacross : (⟨x, y, .right⟩ : Position).across = (x + 1, y) := Position.across_right rfl
    -- behind the last side of the later circuit nothing of the earlier one lies in the way
    by_cases hleft : (⟨x + 1, y, .left⟩ : Position) ∈ mask.circuit connectivity e
    · exact (he.winding_along hd hne hleft).1
    by_cases hright : (⟨x, y, .right⟩ : Position) ∈ mask.circuit connectivity e
    · rw [← hacross]
      exact (he.winding_along hd hne hright).2
    have hsame : winding (mask.circuit connectivity e) (x + 1, y) =
        winding (mask.circuit connectivity e) (x, y) := winding_next_of_not_mem hleft hright
    have hinside : Encloses (mask.circuit connectivity e) (x, y) := by
      rw [encloses_iff] at *
      rwa [← hsame]
    have hleft' : (⟨x + 1, y, .left⟩ : Position) ∉ mask.circuit connectivity d := fun hs ↦
      encloses_iff.1 hq (he.winding_eq_zero_of_earlier hd h hs)
    have hright' : (⟨x, y, .right⟩ : Position) ∉ mask.circuit connectivity d := fun hs ↦
      encloses_iff.1 hinside (he.winding_eq_zero_of_earlier hd h hs)
    rw [winding_next_of_not_mem hleft' hright', ih hinside]

/-- Both pixels at a start have the same place in every other circuit. -/
theorem encloses_past_iff (he : mask.IsStart connectivity e) (hd : mask.IsStart connectivity d)
    (hne : d ≠ e) : Encloses (mask.circuit connectivity d) e.past ↔
      Encloses (mask.circuit connectivity d) e.pixel := by
  rw [encloses_iff, encloses_iff]
  rcases Position.side_eq_of_isVertical he.isVertical with hside | hside
  · rw [Position.past_left hside]
  · rw [Position.past_right hside, (he.winding_along hd hne he.self_mem).2]

end IsStart

/-- A start at which the search enters from outside of everything. -/
structure IsOutermost (mask : Mask) (connectivity : Connectivity) (e : Position) : Prop where
  isStart : mask.IsStart connectivity e
  depth_past : mask.depth connectivity e.past = 1

/-- The earliest of the circuits that enclose a pixel is an outermost one. -/
theorem exists_isOutermost (h : 0 < mask.depth connectivity p) :
    ∃ e, mask.IsOutermost connectivity e ∧ Encloses (mask.circuit connectivity e) p := by
  obtain ⟨e, he, hleast⟩ := Finset.exists_min_image _ mask.slot (Finset.card_pos.1 h)
  obtain ⟨hstart, henc⟩ := Finset.mem_filter.1 he
  rw [mem_starts] at hstart
  refine ⟨e, ⟨hstart, Finset.card_eq_one.2 ⟨e, ?_⟩⟩, henc⟩
  ext d
  rw [Finset.mem_filter, mem_starts, Finset.mem_singleton]
  constructor
  · rintro ⟨hd, hdenc⟩
    by_contra hne
    have hlt : mask.slot d < mask.slot e := by
      refine lt_of_le_of_ne ?_ fun heq ↦ hne (hstart.eq_of_slot_eq hd heq)
      exact (slot_le_iff hd.isBoundary hstart.isBoundary hd.isVertical hstart.isVertical).2
        (hd.start_le_of_encloses hdenc)
    have hpixel := (hstart.encloses_past_iff hd hne).1 hdenc
    have hq : Encloses (mask.circuit connectivity d) p := by
      rw [encloses_iff, hstart.winding_eq_of_encloses hd hlt henc]
      exact encloses_iff.1 hpixel
    have hle := hleast d (Finset.mem_filter.2 ⟨mem_starts.2 hd, hq⟩)
    omega
  · rintro rfl
    exact ⟨hstart, hstart.encloses_past⟩

namespace IsOutermost

theorem side_eq (he : mask.IsOutermost connectivity e) : e.side = .left :=
  he.isStart.odd_depth_past_iff.1 (by rw [he.depth_past]; decide)

theorem eq_of_encloses_past (he : mask.IsOutermost connectivity e)
    (hd : mask.IsStart connectivity d) (h : Encloses (mask.circuit connectivity d) e.past) :
    d = e := by
  obtain ⟨c, hc⟩ := Finset.card_eq_one.1 he.depth_past
  have hmem (b : Position) (hb : mask.IsStart connectivity b)
      (henc : Encloses (mask.circuit connectivity b) e.past) : b = c := by
    rw [← Finset.mem_singleton, ← hc]
    exact Finset.mem_filter.2 ⟨mem_starts.2 hb, henc⟩
  rw [hmem d hd h, hmem e he.isStart he.isStart.encloses_past]

/-- Outermost circuits do not overlap. -/
theorem eq_of_encloses (he : mask.IsOutermost connectivity e)
    (hd : mask.IsOutermost connectivity d) (hep : Encloses (mask.circuit connectivity e) p)
    (hdp : Encloses (mask.circuit connectivity d) p) : d = e := by
  -- the earlier of the two would enclose the start of the later one
  have hearlier {d e : Position} (he : mask.IsOutermost connectivity e)
      (hd : mask.IsOutermost connectivity d) (hep : Encloses (mask.circuit connectivity e) p)
      (hdp : Encloses (mask.circuit connectivity d) p) : ¬ mask.slot d < mask.slot e := by
    intro hlt
    have hne : d ≠ e := fun heq ↦ by
      rw [heq] at hlt
      omega
    rw [encloses_iff, he.isStart.winding_eq_of_encloses hd.isStart hlt hep, ← encloses_iff,
      ← he.isStart.encloses_past_iff hd.isStart hne] at hdp
    exact hne (he.eq_of_encloses_past hd.isStart hdp)
  have hde := hearlier he hd hep hdp
  have hed := hearlier hd he hdp hep
  exact he.isStart.eq_of_slot_eq hd.isStart (by omega)

end IsOutermost

end Mask

end ContourTracing
