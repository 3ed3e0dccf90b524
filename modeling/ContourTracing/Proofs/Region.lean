import Mathlib.Data.Set.Function
import ContourTracing.Proofs.Start

/-!
# Objects, holes and starts

The starts on left sides correspond to the objects: each is the left side of the first pixel of
its object. The starts on right sides correspond to the holes: each has the first pixel of its
hole across. Both directions rest on the winding numbers of the circuits.
-/

namespace ContourTracing

namespace Mask

variable {mask : Mask} {connectivity : Connectivity} {d e s : Position} {p q : Pixel}

/-! ## Objects -/

theorem IsStart.isRasterFirst_object (h : mask.IsStart connectivity e) (hside : e.side = .left) :
    IsRasterFirst e.pixel (mask.objectAt connectivity e.pixel) := by
  refine ⟨Connectivity.mem_component_self, ?_⟩
  intro q hq
  have hwinding := h.isCirculation.winding_eq_of_mem_objectAt (isBoundary_iff.1 h.isBoundary).1 hq
  rw [h.winding_pixel, if_pos hside] at hwinding
  have hle := h.start_le_of_encloses (p := q) (encloses_iff.2 (by rw [hwinding]; decide))
  rwa [Position.edge_left hside] at hle

/-- The left side of the first pixel of an object is the start of its circuit. -/
theorem exists_isStart_of_object {K : Set Pixel} (hK : K ∈ mask.objects connectivity) :
    ∃ e, mask.IsStart connectivity e ∧ e.side = .left ∧ e.pixel ∈ K := by
  have hsubset (q : Pixel) (hq : q ∈ K) := (Connectivity.eq_component_of_mem hK hq).1
  have hne : K.Nonempty := by
    obtain ⟨q, -, rfl⟩ := hK
    exact ⟨q, Connectivity.mem_component_self⟩
  obtain ⟨p, hp, hfirst⟩ := exists_isRasterFirst hne fun q hq ↦
    contains_of_mem_objectPixels (hsubset q hq)
  obtain ⟨hset, hcomponent⟩ := Connectivity.eq_component_of_mem hK hp
  let s : Position := ⟨p.1, p.2, .left⟩
  have hacross : s.across = (p.1 - 1, p.2) := by
    simp [s, Position.across, Side.outward, sub_eq_add_neg]
  have hs : mask.IsBoundary s := by
    refine isBoundary_iff.2 ⟨hset, ?_⟩
    intro hmem
    have hearlier : s.across ∈ K := by
      rw [hcomponent]
      exact Connectivity.mem_component_of_adjacent Connectivity.mem_component_self
        (connectivity.adjacent_across s) hmem
    have := hfirst _ hearlier
    rw [hacross] at this
    omega
  obtain ⟨e, he, hse⟩ := exists_isStart connectivity hs
  have heK : e.pixel ∈ K := by
    rw [hcomponent]
    exact pixel_mem_objectAt hs (mem_circuit_symm he.isBoundary hse)
  have hle := (slot_le_iff he.isBoundary hs he.isVertical rfl).1 (he.slot_le s hse rfl)
  have hge := hfirst _ heK
  have hedge : s.edge = p.1 := rfl
  have hrow : s.y = p.2 := rfl
  refine ⟨e, he, ?_, heK⟩
  by_contra hside
  have hright := (Position.side_eq_of_isVertical he.isVertical).resolve_left hside
  rw [Position.edge_right hright, hedge] at hle
  simp only [Position.pixel] at hge
  omega

/-- Objects correspond to the starts on left sides. -/
theorem bijOn_objects (mask : Mask) (connectivity : Connectivity) :
    Set.BijOn (fun e : Position ↦ mask.objectAt connectivity e.pixel)
      {e | mask.IsStart connectivity e ∧ e.side = .left} (mask.objects connectivity) := by
  refine ⟨fun e he ↦ ?_, fun e he d hd heq ↦ ?_, fun K hK ↦ ?_⟩
  · exact ⟨e.pixel, (isBoundary_iff.1 he.1.isBoundary).1, rfl⟩
  · have hfirst := he.1.isRasterFirst_object he.2
    simp only at heq
    rw [heq] at hfirst
    have hpixel := hfirst.unique (hd.1.isRasterFirst_object hd.2)
    obtain ⟨x, y, side⟩ := e
    obtain ⟨x', y', side'⟩ := d
    obtain ⟨rfl, rfl⟩ := Prod.mk.inj hpixel
    obtain rfl : side = side' := he.2.trans hd.2.symm
    rfl
  · obtain ⟨e, he, hside, heK⟩ := exists_isStart_of_object hK
    exact ⟨e, ⟨he, hside⟩, (Connectivity.eq_component_of_mem hK heK).2.symm⟩

/-! ## Holes -/

theorem exists_not_contains_across (h : mask.IsOnRim p) :
    ∃ s : Position, s.pixel = p ∧ ¬ mask.Contains s.across.1 s.across.2 := by
  obtain ⟨x, y⟩ := p
  rcases h with h | h | h | h <;> simp only at h
  · refine ⟨⟨x, y, .left⟩, rfl, ?_⟩
    intro hc
    have := hc.1
    simp [Position.across, Side.outward] at this
    omega
  · refine ⟨⟨x, y, .right⟩, rfl, ?_⟩
    intro hc
    have := hc.2.1
    simp [Position.across, Side.outward] at this
    omega
  · refine ⟨⟨x, y, .top⟩, rfl, ?_⟩
    intro hc
    have := hc.2.2.1
    simp [Position.across, Side.outward] at this
    omega
  · refine ⟨⟨x, y, .bottom⟩, rfl, ?_⟩
    intro hc
    have := hc.2.2.2
    simp [Position.across, Side.outward] at this
    omega

namespace IsStart

theorem across_mem_gapPixels (h : mask.IsStart connectivity e) (hside : e.side = .right) :
    e.across ∈ mask.gapPixels := by
  have hpast : e.past = e.across := Position.past_right hside
  rw [mem_gapPixels_iff, ← hpast]
  exact ⟨h.contains_of_encloses h.encloses_past, hpast ▸ (isBoundary_iff.1 h.isBoundary).2⟩

theorem winding_of_mem_gapAt (h : mask.IsStart connectivity e) (hside : e.side = .right)
    (hq : q ∈ mask.gapAt connectivity e.across) :
    winding (mask.circuit connectivity e) q = -1 := by
  rw [h.isCirculation.winding_eq_of_mem_gapAt (h.across_mem_gapPixels hside) hq,
    h.winding_across_of_mem h.self_mem, if_neg (by simp [hside])]

theorem isRasterFirst_gap (h : mask.IsStart connectivity e) (hside : e.side = .right) :
    IsRasterFirst e.across (mask.gapAt connectivity e.across) := by
  refine ⟨Connectivity.mem_component_self, ?_⟩
  intro q hq
  have hwinding := h.winding_of_mem_gapAt hside hq
  have hle := h.start_le_of_encloses (p := q) (encloses_iff.2 (by rw [hwinding]; decide))
  have hacross : e.across = (e.x + 1, e.y) := by simp [Position.across, Side.outward, hside]
  rw [Position.edge_right hside] at hle
  rwa [hacross]

/-- What a start on a right side has across is a hole. -/
theorem gapAt_mem_holes (h : mask.IsStart connectivity e) (hside : e.side = .right) :
    mask.gapAt connectivity e.across ∈ mask.holes connectivity := by
  have hgap := h.across_mem_gapPixels hside
  refine ⟨⟨e.across, hgap, rfl⟩, ?_⟩
  intro q hq hrim
  obtain ⟨s, rfl, hout⟩ := exists_not_contains_across hrim
  have hunset : s.pixel ∉ mask.objectPixels :=
    (mem_gapPixels_iff.1 (Connectivity.component_subset hgap hq)).2
  have hunset' : s.across ∉ mask.objectPixels := fun hmem ↦
    hout (contains_of_mem_objectPixels hmem)
  have hsame := h.isCirculation.winding_across_eq (iff_of_false hunset hunset')
  rw [h.winding_of_mem_gapAt hside hq,
    h.isCirculation.winding_eq_zero_of_not_contains hout] at hsame
  omega

end IsStart

/-- The pixel to the left of the first pixel of a hole has the start of a circuit on its right
side. -/
theorem exists_isStart_of_hole {U : Set Pixel} (hU : U ∈ mask.holes connectivity) :
    ∃ e, mask.IsStart connectivity e ∧ e.side = .right ∧ e.across ∈ U := by
  have hsubset (q : Pixel) (hq : q ∈ U) := (Connectivity.eq_component_of_mem hU.1 hq).1
  have hne : U.Nonempty := by
    obtain ⟨q, -, rfl⟩ := hU.1
    exact ⟨q, Connectivity.mem_component_self⟩
  obtain ⟨r, hr, hfirst⟩ := exists_isRasterFirst hne fun q hq ↦ (hsubset q hq).1
  let s : Position := ⟨r.1 - 1, r.2, .right⟩
  have hacross : s.across = r := by simp [s, Position.across, Side.outward]
  have hset : s.pixel ∈ mask.objectPixels := by
    by_contra hunset
    have hadj := (connectivity.opposite.adjacent_across s).symm
    rw [hacross] at hadj
    have hearlier := hfirst _ (mem_hole_of_adjacent hU hr hadj hunset)
    simp only [Position.pixel, s] at hearlier
    omega
  have hs : mask.IsBoundary s := by
    rw [isBoundary_iff, hacross]
    exact ⟨hset, (mem_gapPixels_iff.1 (hsubset r hr)).2⟩
  obtain ⟨e, he, hse⟩ := exists_isStart connectivity hs
  have heU : e.across ∈ U :=
    across_mem_hole hU hs (hacross ▸ hr) (mem_circuit_symm he.isBoundary hse)
  have hle := (slot_le_iff he.isBoundary hs he.isVertical rfl).1 (he.slot_le s hse rfl)
  have hge := hfirst _ heU
  have hedge : s.edge = r.1 := by simp [s, Position.edge]
  refine ⟨e, he, ?_, heU⟩
  by_contra hside
  have hleft := (Position.side_eq_of_isVertical he.isVertical).resolve_right hside
  rw [Position.edge_left hleft, hedge] at hle
  simp only [Position.across, hleft, Side.outward] at hge
  have hrow : s.y = r.2 := rfl
  omega

/-- Holes correspond to the starts on right sides. -/
theorem bijOn_holes (mask : Mask) (connectivity : Connectivity) :
    Set.BijOn (fun e : Position ↦ mask.gapAt connectivity e.across)
      {e | mask.IsStart connectivity e ∧ e.side = .right} (mask.holes connectivity) := by
  refine ⟨fun e he ↦ he.1.gapAt_mem_holes he.2, fun e he d hd heq ↦ ?_, fun U hU ↦ ?_⟩
  · have hfirst := he.1.isRasterFirst_gap he.2
    simp only at heq
    rw [heq] at hfirst
    have hacross := hfirst.unique (hd.1.isRasterFirst_gap hd.2)
    obtain ⟨x, y, side⟩ := e
    obtain ⟨x', y', side'⟩ := d
    obtain rfl : side = .right := he.2
    obtain rfl : side' = .right := hd.2
    simpa [Position.across, Side.outward] using hacross
  · obtain ⟨e, he, hside, heU⟩ := exists_isStart_of_hole hU
    exact ⟨e, ⟨he, hside⟩, (Connectivity.eq_component_of_mem hU.1 heU).2.symm⟩

end Mask

end ContourTracing
