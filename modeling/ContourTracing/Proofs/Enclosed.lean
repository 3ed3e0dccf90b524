import ContourTracing.Proofs.Coverage
import ContourTracing.Proofs.Exterior

/-!
# What a circuit encloses

The circuit that starts on the left side of an object encloses the object with all that it
surrounds, and the circuit of a hole the hole with all that lies within: in both cases what does
not belong to the exterior. The area of a circuit is the number of the enclosed pixels, negative
for a hole.
-/

namespace ContourTracing

open Finset

namespace Mask

variable {mask : Mask} {connectivity κ : Connectivity} {sides : List Position} {e s : Position}
  {K R U : Set Pixel} {a b p : Pixel}

/-! ## Outside of a region -/

namespace IsCirculation

theorem winding_across_of_not_mem_region (hc : mask.IsCirculation connectivity sides)
    (hR : ∀ s ∈ sides, s.pixel ∈ R ∨ s.across ∈ R) (hpixel : s.pixel ∉ R) (hacross : s.across ∉ R) :
    winding sides s.across = winding sides s.pixel := by
  have hs : s ∉ sides := fun hmem ↦ by
    have := hR s hmem
    tauto
  have hflip : s.flip ∉ sides := fun hmem ↦ by
    have := hR _ hmem
    rw [Position.pixel_flip, Position.across_flip] at this
    tauto
  rw [hc.winding_across, List.count_eq_zero.2 hs, List.count_eq_zero.2 hflip]
  simp

/-- Along a region the winding number changes nowhere outside of it, if it does not do so between
two pixels that touch the region. -/
theorem winding_eq_of_adjacent_of_not_mem (hc : mask.IsCirculation connectivity sides)
    (hR : ∀ s ∈ sides, s.pixel ∈ R ∨ s.across ∈ R)
    (htouch : ∀ s t : Position, s.pixel ∈ R → t.pixel ∈ R → s.across ∉ R → t.across ∉ R →
      κ.Adjacent s.across t.across → winding sides t.across = winding sides s.across)
    (ha : a ∉ R) (hb : b ∉ R) (hadj : κ.Adjacent a b) : winding sides b = winding sides a := by
  rcases Connectivity.exists_of_adjacent hadj with ⟨s, rfl, rfl⟩ | ⟨-, s, rfl, rfl⟩
  · exact hc.winding_across_of_not_mem_region hR ha hb
  · let far : Position := ⟨s.across.1, s.across.2, s.side.clockwise⟩
    have hfar : far.across = s.aheadAcross := s.across_turned_across
    by_cases hacross : s.across ∈ R
    · have hflip := s.across_flip
      rw [← hfar, ← hflip]
      apply htouch s.flip far hacross hacross
      · rwa [hflip]
      · rwa [hfar]
      · rwa [hflip, hfar]
    · calc
        _ = winding sides far.across := by rw [hfar]
        _ = winding sides s.across := hc.winding_across_of_not_mem_region hR hacross (by rwa [hfar])
        _ = winding sides s.pixel := hc.winding_across_of_not_mem_region hR ha hacross

end IsCirculation

namespace IsStart

/-! ## Objects -/

theorem winding_eq_of_not_mem_object (h : mask.IsStart connectivity e)
    (hK : K ∈ mask.objects connectivity) (heK : e.pixel ∈ K) (ha : a ∉ K) (hb : b ∉ K)
    (hadj : connectivity.opposite.Adjacent a b) :
    winding (mask.circuit connectivity e) b = winding (mask.circuit connectivity e) a := by
  have hwhole := isWhole_object hK
  refine h.isCirculation.winding_eq_of_adjacent_of_not_mem (R := K)
    (fun s hs ↦ .inl ((h.pixel_mem_iff_of_object hK hs).2 heK)) ?_ ha hb hadj
  intro s t hs ht hs' ht' hadj
  exact h.isCirculation.winding_eq_of_adjacent_opposite
    (fun hset ↦ hs' (hwhole.across_mem s hs hset))
    (fun hset ↦ ht' (hwhole.across_mem t ht hset)) hadj

/-- What an object's circuit has across belongs to the exterior of the object. -/
theorem across_mem_exterior (h : mask.IsStart connectivity e) (hside : e.side = .left)
    (hK : K ∈ mask.objects connectivity) (heK : e.pixel ∈ K)
    (hs : s ∈ mask.circuit connectivity e) : s.across ∈ connectivity.opposite.exterior K := by
  have hobject := (Connectivity.eq_component_of_mem hK heK).2
  have hsubset := (isWhole_object hK).subset
  have hfirst := h.isRasterFirst_object hside
  rw [objectAt, ← hobject] at hfirst
  have hout : e.across ∈ connectivity.opposite.exterior K := by
    have hbefore := (bounds_of_subset hsubset).mem_exterior_of_isRasterFirst
      connectivity.opposite hfirst
    rwa [← Position.before_left hside, Position.before, Position.edge_left hside]
  refine across_mem_of_mem_circuit ?_ h.isBoundary hout hs
  intro p hp q hadj hq
  exact Connectivity.mem_exterior_of_adjacent hp hadj fun hmem ↦ hq (hsubset hmem)

/-- The circuit of an object encloses all but the exterior of the object. -/
theorem encloses_iff_of_object (h : mask.IsStart connectivity e) (hside : e.side = .left)
    (hK : K ∈ mask.objects connectivity) (heK : e.pixel ∈ K) :
    Encloses (mask.circuit connectivity e) p ↔ p ∉ connectivity.opposite.exterior K := by
  have hobject := (Connectivity.eq_component_of_mem hK heK).2
  have hwhole := isWhole_object hK
  have hinside (p : Pixel) (hp : p ∈ K) : winding (mask.circuit connectivity e) p = 1 := by
    rw [h.isCirculation.winding_eq_of_mem_objectAt (hwhole.subset heK)
      (by rwa [objectAt, ← hobject]), h.winding_pixel, if_pos hside]
  rw [encloses_iff, not_iff_not]
  refine ((bounds_of_subset hwhole.subset).mem_exterior_iff one_ne_zero
    (fun p hp ↦ h.isCirculation.winding_eq_zero_of_not_contains hp) hinside
      (fun a b ha hb hadj ↦ h.winding_eq_of_not_mem_object hK heK ha hb hadj) ?_).symm
  -- the circuit has only the exterior across
  intro x y hleft hright hout
  have hacross : (⟨x, y, .right⟩ : Position).across = (x + 1, y) := Position.across_right rfl
  have hboundary : mask.IsBoundary ⟨x, y, .right⟩ := by
    refine isBoundary_iff.2 ⟨hwhole.subset hleft, fun hset ↦ hright ?_⟩
    rw [← hacross]
    exact hwhole.across_mem _ hleft hset
  have hnot : (⟨x, y, .right⟩ : Position) ∉ mask.circuit connectivity e := fun hmem ↦ by
    have hmem := h.across_mem_exterior hside hK heK hmem
    rw [hacross] at hmem
    exact hout hmem
  rw [← hacross, h.isCirculation.winding_across_of_not_mem hboundary hnot]
  exact hinside _ hleft

/-! ## Holes -/

theorem winding_eq_of_not_mem_hole (h : mask.IsStart connectivity e)
    (hU : U ∈ mask.holes connectivity) (heU : e.across ∈ U) (ha : a ∉ U) (hb : b ∉ U)
    (hadj : connectivity.Adjacent a b) :
    winding (mask.circuit connectivity e) b = winding (mask.circuit connectivity e) a := by
  refine h.isCirculation.winding_eq_of_adjacent_of_not_mem (R := U)
    (fun s hs ↦ .inr (across_mem_hole hU h.isBoundary heU hs)) ?_ ha hb hadj
  intro s t hs ht hs' ht' hadj
  have hset (s : Position) (hs : s.pixel ∈ U) (hs' : s.across ∉ U) :
      s.across ∈ mask.objectPixels := by
    by_contra hunset
    exact hs' (mem_hole_of_adjacent hU hs (connectivity.opposite.adjacent_across s) hunset)
  exact h.isCirculation.winding_eq_of_adjacent (hset s hs hs') (hset t ht ht') hadj

/-- A hole's circuit runs in the exterior of the hole. -/
theorem pixel_mem_exterior (h : mask.IsStart connectivity e) (hside : e.side = .right)
    (hU : U ∈ mask.holes connectivity) (heU : e.across ∈ U)
    (hs : s ∈ mask.circuit connectivity e) : s.pixel ∈ connectivity.exterior U := by
  have hhole := (Connectivity.eq_component_of_mem hU.1 heU).2
  have hsubset (p : Pixel) (hp : p ∈ U) := (Connectivity.eq_component_of_mem hU.1 hp).1
  have hfirst := h.isRasterFirst_gap hside
  rw [gapAt, ← hhole] at hfirst
  have hout : e.pixel ∈ connectivity.exterior U := by
    have hbefore := (bounds_hole hU).mem_exterior_of_isRasterFirst connectivity hfirst
    rw [Position.across_right hside, Int.add_sub_cancel] at hbefore
    exact hbefore
  have hobject : mask.objectPixels ⊆ Uᶜ := fun p hp hmem ↦
    (mem_gapPixels_iff.1 (hsubset p hmem)).2 hp
  exact Relation.ReflTransGen.trans hout
    (Connectivity.component_mono hobject (pixel_mem_objectAt h.isBoundary hs))

/-- The circuit of a hole encloses all but the exterior of the hole. -/
theorem encloses_iff_of_hole (h : mask.IsStart connectivity e) (hside : e.side = .right)
    (hU : U ∈ mask.holes connectivity) (heU : e.across ∈ U) :
    Encloses (mask.circuit connectivity e) p ↔ p ∉ connectivity.exterior U := by
  have hhole := (Connectivity.eq_component_of_mem hU.1 heU).2
  have hsubset (p : Pixel) (hp : p ∈ U) := (Connectivity.eq_component_of_mem hU.1 hp).1
  have hinside (p : Pixel) (hp : p ∈ U) : winding (mask.circuit connectivity e) p = -1 :=
    h.winding_of_mem_gapAt hside (by rwa [gapAt, ← hhole])
  rw [encloses_iff, not_iff_not]
  refine ((bounds_hole hU).mem_exterior_iff (by decide)
    (fun p hp ↦ h.isCirculation.winding_eq_zero_of_not_contains hp) hinside
      (fun a b ha hb hadj ↦ h.winding_eq_of_not_mem_hole hU heU ha hb hadj) ?_).symm
  -- the circuit visits only the exterior
  intro x y hleft hright hout
  have hacross : (⟨x + 1, y, .left⟩ : Position).across = (x, y) := by
    simp [Position.across, Side.outward]
  have hboundary : mask.IsBoundary ⟨x + 1, y, .left⟩ := by
    rw [isBoundary_iff, hacross]
    refine ⟨?_, (mem_gapPixels_iff.1 (hsubset _ hleft)).2⟩
    by_contra hunset
    have hadj := connectivity.opposite.adjacent_across ⟨x + 1, y, .left⟩
    rw [hacross] at hadj
    exact hright (mem_hole_of_adjacent hU hleft hadj.symm hunset)
  have hnot : (⟨x + 1, y, .left⟩ : Position) ∉ mask.circuit connectivity e := fun hmem ↦
    hout (h.pixel_mem_exterior hside hU heU hmem)
  have hsame := h.isCirculation.winding_across_of_not_mem hboundary hnot
  rw [hacross, hinside _ hleft] at hsame
  exact hsame.symm

/-! ## Areas -/

/-- The area of a circuit counts what it encloses. -/
theorem sum_areaAt (h : mask.IsStart connectivity e) :
    ((mask.circuit connectivity e).map Tally.areaAt).sum =
      e.orientation * {p | Encloses (mask.circuit connectivity e) p}.ncard := by
  have hcontains (p : Pixel) (hp : p ∈ {p | Encloses (mask.circuit connectivity e) p}) :=
    h.contains_of_encloses hp
  have hwinding (p : Pixel) : winding (mask.circuit connectivity e) p =
      e.orientation * {p | Encloses (mask.circuit connectivity e) p}.indicator 1 p := by
    rw [h.winding_eq p]
    by_cases hp : Encloses (mask.circuit connectivity e) p
    · rw [if_pos hp, Set.indicator_of_mem (Set.mem_ofPred_eq ▸ hp), Pi.one_apply, mul_one,
        Position.orientation]
    · rw [if_neg hp, Set.indicator_of_notMem (Set.mem_ofPred_eq ▸ hp), mul_zero]
  have hrow (y : ℤ) : winding (mask.circuit connectivity e) (mask.width, y) = 0 :=
    h.isCirculation.winding_eq_zero_of_not_contains fun hc ↦ lt_irrefl _ hc.2.1
  calc
    _ = mask.windingSum (mask.circuit connectivity e) := by
      apply sum_areaAt_eq _ hrow
      intro s hs
      exact contains_of_isBoundary (isBoundary_of_mem_circuit h.isBoundary hs)
    _ = e.orientation * ∑ y ∈ range mask.height, ∑ x ∈ range mask.width,
        {p | Encloses (mask.circuit connectivity e) p}.indicator (1 : Pixel → ℤ) (x, y) := by
      simp only [windingSum, hwinding, mul_sum]
    _ = _ := by rw [sum_indicator_eq_ncard hcontains]

theorem ncard_encloses_pos (h : mask.IsStart connectivity e) :
    0 < {p | Encloses (mask.circuit connectivity e) p}.ncard := by
  apply (Set.ncard_pos (mask.finite_contains.subset fun p hp ↦ h.contains_of_encloses hp)).2
  exact ⟨e.past, h.encloses_past⟩

end IsStart

/-! ## What the tours enclose -/

/-- The area of an object's tour is the number of pixels of the object and all that it surrounds.
The area of a hole's tour is the same for the hole, negative. -/
structure HasEnclosedAreas (mask : Mask) (connectivity : Connectivity) (tours : List Tour) :
    Prop where
  side_eq : ∀ tour ∈ tours, tour.start.side = .left ∨ tour.start.side = .right
  area_object : ∀ tour ∈ tours, tour.start.side = .left →
    let K := mask.objectAt connectivity tour.start.pixel
    K ∈ mask.objects connectivity ∧ ∃ D, connectivity.opposite.IsUnboundedComponent Kᶜ D ∧
      tour.tally.area = {p : Pixel | mask.Contains p.1 p.2 ∧ p ∉ D}.ncard
  area_hole : ∀ tour ∈ tours, tour.start.side = .right →
    let U := mask.gapAt connectivity (tour.start.x + 1, tour.start.y)
    U ∈ mask.holes connectivity ∧ ∃ D, connectivity.IsUnboundedComponent Uᶜ D ∧
      tour.tally.area = -{p : Pixel | mask.Contains p.1 p.2 ∧ p ∉ D}.ncard
  area_pos : ∀ tour ∈ tours, tour.start.side = .left → 0 < tour.tally.area
  area_neg : ∀ tour ∈ tours, tour.start.side = .right → tour.tally.area < 0

theorem area_tour_of_isStart {level : Position → ℤ} (h : mask.IsStart connectivity e) :
    (mask.tour connectivity level e).tally.area =
      e.orientation * {p | Encloses (mask.circuit connectivity e) p}.ncard := by
  rw [area_tour, h.sum_areaAt]

theorem IsStart.setOf_encloses_eq {D : Set Pixel} (h : mask.IsStart connectivity e)
    (hD : ∀ p, Encloses (mask.circuit connectivity e) p ↔ p ∉ D) :
    {p | Encloses (mask.circuit connectivity e) p} =
      {p : Pixel | mask.Contains p.1 p.2 ∧ p ∉ D} := by
  ext p
  exact ⟨fun hp ↦ ⟨h.contains_of_encloses hp, (hD p).1 hp⟩, fun hp ↦ (hD p).2 hp.2⟩

theorem IsStart.area_tour_of_object {level : Position → ℤ} (h : mask.IsStart connectivity e)
    (hside : e.side = .left) :
    let K := mask.objectAt connectivity e.pixel
    K ∈ mask.objects connectivity ∧ ∃ D, connectivity.opposite.IsUnboundedComponent Kᶜ D ∧
      (mask.tour connectivity level e).tally.area =
        {p : Pixel | mask.Contains p.1 p.2 ∧ p ∉ D}.ncard := by
  have hK := (mask.bijOn_objects connectivity).mapsTo ⟨h, hside⟩
  refine ⟨hK, _, (bounds_of_subset (isWhole_object hK).subset).isUnboundedComponent_exterior
    connectivity.opposite, ?_⟩
  rw [area_tour_of_isStart h, Position.orientation, if_pos hside, one_mul, h.setOf_encloses_eq
    fun p ↦ h.encloses_iff_of_object hside hK Connectivity.mem_component_self]

theorem IsStart.area_tour_of_hole {level : Position → ℤ} (h : mask.IsStart connectivity e)
    (hside : e.side = .right) :
    let U := mask.gapAt connectivity (e.x + 1, e.y)
    U ∈ mask.holes connectivity ∧ ∃ D, connectivity.IsUnboundedComponent Uᶜ D ∧
      (mask.tour connectivity level e).tally.area =
        -{p : Pixel | mask.Contains p.1 p.2 ∧ p ∉ D}.ncard := by
  have hU := h.gapAt_mem_holes hside
  rw [← Position.across_right hside]
  refine ⟨hU, _, (bounds_hole hU).isUnboundedComponent_exterior connectivity, ?_⟩
  rw [area_tour_of_isStart h, Position.orientation, if_neg (by simp [hside]), neg_one_mul,
    h.setOf_encloses_eq fun p ↦ h.encloses_iff_of_hole hside hU Connectivity.mem_component_self]

theorem hasEnclosedAreas_allTours (mask : Mask) (connectivity : Connectivity) :
    mask.HasEnclosedAreas connectivity (mask.allTours connectivity) := by
  refine ⟨?_, ?_, ?_, ?_, ?_⟩
  · intro tour htour
    obtain ⟨e, he, rfl⟩ := mem_allTours.1 htour
    exact Position.side_eq_of_isVertical he.isVertical
  · intro tour htour hside
    obtain ⟨e, he, rfl⟩ := mem_allTours.1 htour
    exact he.area_tour_of_object hside
  · intro tour htour hside
    obtain ⟨e, he, rfl⟩ := mem_allTours.1 htour
    exact he.area_tour_of_hole hside
  · intro tour htour hside
    obtain ⟨e, he, rfl⟩ := mem_allTours.1 htour
    change e.side = .left at hside
    rw [area_tour_of_isStart he, Position.orientation, if_pos hside, one_mul]
    exact Int.natCast_pos.2 he.ncard_encloses_pos
  · intro tour htour hside
    obtain ⟨e, he, rfl⟩ := mem_allTours.1 htour
    change e.side = .right at hside
    rw [area_tour_of_isStart he, Position.orientation, if_neg (by simp [hside]), neg_one_mul]
    exact neg_neg_of_pos (Int.natCast_pos.2 he.ncard_encloses_pos)

end Mask

namespace Tracer

variable {tracer : Tracer}

/-- The areas that the loop adds up count the enclosed pixels. -/
theorem exists_tours_with_enclosed_areas (h : tracer.IsFreshForAll) :
    ∃ tours last, tracer.Loop tours last ∧
      tracer.mask.HasEnclosedAreas tracer.connectivity tours := by
  obtain ⟨last, hloop⟩ := h.exists_loop
  exact ⟨_, last, hloop, tracer.mask.hasEnclosedAreas_allTours tracer.connectivity⟩

theorem exists_tours_with_enclosed_areas_target :
    let tracer := new .target .null .straight (.fresh Mask.target.size .all)
    tracer.IsFreshForAll ∧ ∃ tours last, tracer.Loop tours last ∧
      Mask.target.HasEnclosedAreas .straight tours :=
  ⟨isFreshForAll_new .target .null .straight,
    exists_tours_with_enclosed_areas (isFreshForAll_new .target .null .straight)⟩

end Tracer

end ContourTracing
