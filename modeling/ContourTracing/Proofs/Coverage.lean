import ContourTracing.Proofs.AllBoundaries
import ContourTracing.Proofs.Area
import ContourTracing.Proofs.Region

/-!
# What the loop over all boundaries covers

The tours of a fresh tracer for all boundaries are those of all circuits, one from each start.
So they correspond to the objects and the holes, they arrive on every boundary side once, their
areas add up to the numbers of pixels, and their levels count the boundaries around them.
-/

namespace ContourTracing

namespace Mask

variable {mask : Mask} {connectivity : Connectivity} {P : Position → Prop} {e s : Position}

/-- The sides of the circuits of some starts, one circuit after the other. -/
noncomputable def sidesFrom (mask : Mask) (connectivity : Connectivity) (P : Position → Prop) :
    List Position :=
  (mask.startList connectivity P).flatMap (mask.circuit connectivity)

theorem mem_sidesFrom : s ∈ mask.sidesFrom connectivity P ↔
    ∃ e, mask.IsStart connectivity e ∧ P e ∧ s ∈ mask.circuit connectivity e := by
  simp only [sidesFrom, List.mem_flatMap, mem_startList, and_assoc]

/-- No side lies on two circuits. -/
theorem nodup_sidesFrom (mask : Mask) (connectivity : Connectivity) (P : Position → Prop) :
    (mask.sidesFrom connectivity P).Nodup := by
  refine List.nodup_flatMap.2 ⟨fun e he ↦ nodup_circuit (mem_startList.1 he).1.isBoundary, ?_⟩
  refine (mask.nodup_startList connectivity P).imp_of_mem fun {d e} hd he hne ↦ ?_
  refine List.disjoint_left.2 fun s hsd hse ↦ hne ?_
  exact (mem_startList.1 he).1.eq_of_mem (mem_startList.1 hd).1 hse hsd

/-- Together the circuits of all starts consist of all boundary sides. -/
theorem count_sidesFrom_true (s : Position) :
    (mask.sidesFrom connectivity fun _ ↦ True).count s = if mask.IsBoundary s then 1 else 0 := by
  rw [(mask.nodup_sidesFrom connectivity _).count]
  congr 1
  rw [mem_sidesFrom, eq_iff_iff]
  constructor
  · intro h
    obtain ⟨e, he, -, hs⟩ := h
    exact isBoundary_of_mem_circuit he.isBoundary hs
  · intro h
    obtain ⟨e, he, hs⟩ := exists_isStart connectivity h
    exact ⟨e, he, trivial, hs⟩

/-- A circuit lies on an object as a whole or not at all. -/
theorem IsStart.pixel_mem_iff_of_object {K : Set Pixel} (he : mask.IsStart connectivity e)
    (hK : K ∈ mask.objects connectivity) (hs : s ∈ mask.circuit connectivity e) :
    s.pixel ∈ K ↔ e.pixel ∈ K := by
  have hmem := pixel_mem_objectAt he.isBoundary hs
  constructor
  · intro h
    rw [(Connectivity.eq_component_of_mem hK h).2]
    exact Connectivity.mem_component_symm (isBoundary_iff.1 he.isBoundary).1 hmem
  · intro h
    rw [(Connectivity.eq_component_of_mem hK h).2]
    exact hmem

theorem mem_allTours {tour : Tour} : tour ∈ mask.allTours connectivity ↔
    ∃ e, mask.IsStart connectivity e ∧
      mask.tour connectivity (mask.depth connectivity ·.past) e = tour := by
  simp only [allTours, List.mem_map, mem_startList, and_true]

theorem nodup_allTours (mask : Mask) (connectivity : Connectivity) :
    (mask.allTours connectivity).Nodup :=
  (mask.nodup_startList connectivity _).map fun _ _ h ↦ congrArg (·.start) h

theorem flatMap_positions_allTours (mask : Mask) (connectivity : Connectivity) :
    (mask.allTours connectivity).flatMap (·.positions) =
      mask.sidesFrom connectivity fun _ ↦ True := by
  rw [allTours, List.flatMap_map, sidesFrom]
  exact congrArg List.flatten (List.map_congr_left fun e _ ↦ positions_tour)

/-- What corresponds to starts corresponds to their tours. -/
theorem bijOn_allTours {β : Type*} {f : Position → β} {T : Set β}
    (h : Set.BijOn f {e | mask.IsStart connectivity e ∧ P e} T) :
    Set.BijOn (fun tour : Tour ↦ f tour.start)
      {tour | tour ∈ mask.allTours connectivity ∧ P tour.start} T := by
  refine ⟨?_, ?_, ?_⟩
  · intro tour htour
    obtain ⟨e, he, rfl⟩ := mem_allTours.1 htour.1
    exact h.mapsTo ⟨he, htour.2⟩
  · intro tour htour other hother heq
    obtain ⟨e, he, rfl⟩ := mem_allTours.1 htour.1
    obtain ⟨d, hd, rfl⟩ := mem_allTours.1 hother.1
    exact congrArg _ (h.injOn ⟨he, htour.2⟩ ⟨hd, hother.2⟩ heq)
  · intro b hb
    obtain ⟨e, ⟨he, hP⟩, rfl⟩ := h.surjOn hb
    exact ⟨_, ⟨mem_allTours.2 ⟨e, he, rfl⟩, hP⟩, rfl⟩

open Classical in
/-- The areas of the tours on whole objects add up to the number of their pixels. -/
theorem sum_area_allTours {K : Set Pixel} (hK : mask.IsWhole K)
    (hobject : ∀ e, mask.IsStart connectivity e →
      ∀ s ∈ mask.circuit connectivity e, s.pixel ∈ K ↔ e.pixel ∈ K) :
    (((mask.allTours connectivity).filter (·.start.pixel ∈ K)).map (·.tally.area)).sum =
      K.ncard := by
  have hfilter : (mask.allTours connectivity).filter (·.start.pixel ∈ K) =
      (mask.startList connectivity (·.pixel ∈ K)).map
        (mask.tour connectivity (mask.depth connectivity ·.past)) := by
    rw [allTours, List.filter_map, filter_startList fun e _ ↦ ?_]
    rw [true_and]
    exact decide_eq_true_iff
  have hmem (s : Position) : s ∈ mask.sidesFrom connectivity (·.pixel ∈ K) ↔
      mask.IsBoundary s ∧ s.pixel ∈ K := by
    rw [mem_sidesFrom]
    constructor
    · intro h
      obtain ⟨e, he, hpixel, hs⟩ := h
      exact ⟨isBoundary_of_mem_circuit he.isBoundary hs, (hobject e he s hs).2 hpixel⟩
    · intro h
      obtain ⟨e, he, hs⟩ := exists_isStart connectivity h.1
      exact ⟨e, he, (hobject e he s hs).1 h.2, hs⟩
  calc
    _ = ((mask.startList connectivity (·.pixel ∈ K)).map fun e ↦
        ((mask.circuit connectivity e).map Tally.areaAt).sum).sum := by
      rw [hfilter, List.map_map]
      apply congrArg List.sum
      apply List.map_congr_left
      intro e _
      exact area_tour
    _ = ((mask.sidesFrom connectivity (·.pixel ∈ K)).map Tally.areaAt).sum := by
      rw [sidesFrom, List.map_flatMap, List.flatMap_def, List.sum_flatten, List.map_map]
      rfl
    _ = K.ncard := hK.sum_areaAt hmem (mask.nodup_sidesFrom connectivity _)

/-- The depth behind a start counts the circuits around it. -/
theorem depth_eq_countP (mask : Mask) (connectivity : Connectivity) (p : Pixel) :
    mask.depth connectivity p = (mask.startList connectivity fun _ ↦ True).countP
      fun e ↦ Encloses (mask.circuit connectivity e) p := by
  have hnodup := (mask.nodup_startList connectivity fun _ ↦ True).filter
    fun e ↦ Encloses (mask.circuit connectivity e) p
  rw [List.countP_eq_length_filter, ← List.toFinset_card_of_nodup hnodup, depth]
  congr 1
  ext e
  simp [mem_startList]

/-! ## What a list of tours may satisfy -/

/-- One tour for every object and one for every hole. -/
structure HasTourPerRegion (mask : Mask) (connectivity : Connectivity) (tours : List Tour) :
    Prop where
  nodup : tours.Nodup
  bijOn_objects : Set.BijOn (fun tour : Tour ↦ mask.objectAt connectivity tour.start.pixel)
    {tour | tour ∈ tours ∧ tour.start.side = .left} (mask.objects connectivity)
  isRasterFirst_object : ∀ tour ∈ tours, tour.start.side = .left →
    IsRasterFirst tour.start.pixel (mask.objectAt connectivity tour.start.pixel)
  pixel_mem_object : ∀ tour ∈ tours, ∀ s ∈ tour.positions,
    s.pixel ∈ mask.objectAt connectivity tour.start.pixel
  bijOn_holes : Set.BijOn
    (fun tour : Tour ↦ mask.gapAt connectivity (tour.start.x + 1, tour.start.y))
    {tour | tour ∈ tours ∧ tour.start.side = .right} (mask.holes connectivity)
  isRasterFirst_hole : ∀ tour ∈ tours, tour.start.side = .right →
    IsRasterFirst (tour.start.x + 1, tour.start.y)
      (mask.gapAt connectivity (tour.start.x + 1, tour.start.y))

open Classical in
/-- Every boundary side once, every start the first of its tour, and no area lost. -/
structure IsCoveredBy (mask : Mask) (connectivity : Connectivity) (tours : List Tour) :
    Prop where
  count_positions : ∀ s, (tours.flatMap (·.positions)).count s = if mask.IsBoundary s then 1 else 0
  length_positions : ∀ tour ∈ tours, tour.positions.length = tour.tally.steps
  start_mem : ∀ tour ∈ tours, tour.start ∈ tour.positions ∧ tour.start.side.isVertical = true
  start_first : ∀ tour ∈ tours, ∀ s ∈ tour.positions, s.side.isVertical = true → s ≠ tour.start →
    tour.start.y < s.y ∨ tour.start.y = s.y ∧ tour.start.edge < s.edge
  pixel_mem_object : ∀ tour ∈ tours, ∀ s ∈ tour.positions,
    s.pixel ∈ mask.objectAt connectivity tour.start.pixel
  sum_area_object : ∀ K ∈ mask.objects connectivity,
    ((tours.filter (·.start.pixel ∈ K)).map (·.tally.area)).sum = K.ncard
  sum_area : (tours.map (·.tally.area)).sum = mask.objectPixels.ncard

/-- The level of a tour is the number of tours around the pixel behind its start. -/
structure HasNestingLevels (mask : Mask) (tours : List Tour) : Prop where
  count_positions : ∀ s, (tours.flatMap (·.positions)).count s = if mask.IsBoundary s then 1 else 0
  level_eq : ∀ tour ∈ tours,
    tour.level = tours.countP fun other ↦ Encloses other.positions tour.start.past
  encloses_past : ∀ tour ∈ tours, Encloses tour.positions tour.start.past
  one_le_level : ∀ tour ∈ tours, 1 ≤ tour.level
  odd_level_iff : ∀ tour ∈ tours, Odd tour.level ↔ tour.start.side = .left
  even_level_iff : ∀ tour ∈ tours, Even tour.level ↔ tour.start.side = .right

/-! ## What the tours of all circuits satisfy -/

theorem hasTourPerRegion_allTours (mask : Mask) (connectivity : Connectivity) :
    mask.HasTourPerRegion connectivity (mask.allTours connectivity) := by
  have hacross (e : Position) (hside : e.side = .right) : e.across = (e.x + 1, e.y) := by
    simp [Position.across, hside, Side.outward]
  refine ⟨mask.nodup_allTours connectivity, bijOn_allTours (mask.bijOn_objects connectivity),
    ?_, ?_, ?_, ?_⟩
  · intro tour htour hside
    obtain ⟨e, he, rfl⟩ := mem_allTours.1 htour
    exact he.isRasterFirst_object hside
  · intro tour htour s hs
    obtain ⟨e, he, rfl⟩ := mem_allTours.1 htour
    rw [positions_tour] at hs
    exact pixel_mem_objectAt he.isBoundary hs
  · apply (bijOn_allTours (mask.bijOn_holes connectivity)).congr
    intro tour htour
    simp only [hacross _ htour.2]
  · intro tour htour hside
    obtain ⟨e, he, rfl⟩ := mem_allTours.1 htour
    rw [← hacross _ hside]
    exact he.isRasterFirst_gap hside

open Classical in
theorem isCoveredBy_allTours (mask : Mask) (connectivity : Connectivity) :
    mask.IsCoveredBy connectivity (mask.allTours connectivity) := by
  refine ⟨?_, ?_, ?_, ?_, ?_, ?_, ?_⟩
  · rw [flatMap_positions_allTours]
    exact count_sidesFrom_true
  · intro tour htour
    obtain ⟨e, he, rfl⟩ := mem_allTours.1 htour
    rw [steps_tour, Round.positions, List.length_map]
  · intro tour htour
    obtain ⟨e, he, rfl⟩ := mem_allTours.1 htour
    rw [positions_tour]
    exact ⟨he.self_mem, he.isVertical⟩
  · intro tour htour s hs hv hne
    obtain ⟨e, he, rfl⟩ := mem_allTours.1 htour
    rw [positions_tour] at hs
    exact he.lt_of_mem hs hv hne
  · intro tour htour s hs
    obtain ⟨e, he, rfl⟩ := mem_allTours.1 htour
    rw [positions_tour] at hs
    exact pixel_mem_objectAt he.isBoundary hs
  · intro K hK
    apply sum_area_allTours (isWhole_object hK)
    intro e he s hs
    exact he.pixel_mem_iff_of_object hK hs
  · have hall : (mask.allTours connectivity).filter (·.start.pixel ∈ mask.objectPixels) =
        mask.allTours connectivity := by
      apply List.filter_eq_self.2
      intro tour htour
      obtain ⟨e, he, rfl⟩ := mem_allTours.1 htour
      exact decide_eq_true (isBoundary_iff.1 he.isBoundary).1
    rw [← hall]
    apply sum_area_allTours mask.isWhole_objectPixels
    intro e he s hs
    exact iff_of_true (isBoundary_iff.1 (isBoundary_of_mem_circuit he.isBoundary hs)).1
      (isBoundary_iff.1 he.isBoundary).1

theorem hasNestingLevels_allTours (mask : Mask) (connectivity : Connectivity) :
    mask.HasNestingLevels (mask.allTours connectivity) := by
  have hodd (e : Position) (he : mask.IsStart connectivity e) :
      Odd (mask.depth connectivity e.past : ℤ) ↔ e.side = .left := by
    rw [Int.odd_coe_nat]
    exact he.odd_depth_past_iff
  refine ⟨?_, ?_, ?_, ?_, ?_, ?_⟩
  · rw [flatMap_positions_allTours]
    exact count_sidesFrom_true
  · intro tour htour
    obtain ⟨e, he, rfl⟩ := mem_allTours.1 htour
    rw [allTours, List.countP_map]
    simp only [Function.comp_def, positions_tour]
    exact congrArg Nat.cast (mask.depth_eq_countP connectivity e.past)
  · intro tour htour
    obtain ⟨e, he, rfl⟩ := mem_allTours.1 htour
    rw [positions_tour]
    exact he.encloses_past
  · intro tour htour
    obtain ⟨e, he, rfl⟩ := mem_allTours.1 htour
    exact Int.natCast_pos.2 he.depth_past_pos
  · intro tour htour
    obtain ⟨e, he, rfl⟩ := mem_allTours.1 htour
    exact hodd e he
  · intro tour htour
    obtain ⟨e, he, rfl⟩ := mem_allTours.1 htour
    rw [← Int.not_odd_iff_even]
    refine (not_congr (hodd e he)).trans ?_
    rcases Position.side_eq_of_isVertical he.isVertical with hside | hside <;> simp [hside, tour]

end Mask

/-! ## The tours of a fresh tracer -/

/-- A ring with an object in its hole. -/
def Mask.target : Mask where
  width := 5
  height := 5
  bits := #[true, true, true, true, true,
    true, false, false, false, true,
    true, false, true, false, true,
    true, false, false, false, true,
    true, true, true, true, true]
  size_bits := rfl

namespace Tracer

variable {tracer : Tracer}

/-- The loop ends, with one tour for every object and one for every hole. -/
theorem exists_tour_per_region (h : tracer.IsFreshForAll) :
    ∃ tours last, tracer.Loop tours last ∧
      tracer.mask.HasTourPerRegion tracer.connectivity tours := by
  obtain ⟨last, hloop⟩ := h.exists_loop
  exact ⟨_, last, hloop, tracer.mask.hasTourPerRegion_allTours tracer.connectivity⟩

theorem exists_tour_per_region_target :
    let tracer := new .target .null .straight (.fresh Mask.target.size .all)
    tracer.IsFreshForAll ∧ ∃ tours last, tracer.Loop tours last ∧
      Mask.target.HasTourPerRegion .straight tours :=
  ⟨isFreshForAll_new .target .null .straight,
    exists_tour_per_region (isFreshForAll_new .target .null .straight)⟩

/-- The loop arrives on every boundary side once. -/
theorem exists_tours_cover_boundary (h : tracer.IsFreshForAll) :
    ∃ tours last, tracer.Loop tours last ∧
      tracer.mask.IsCoveredBy tracer.connectivity tours := by
  obtain ⟨last, hloop⟩ := h.exists_loop
  exact ⟨_, last, hloop, tracer.mask.isCoveredBy_allTours tracer.connectivity⟩

theorem exists_tours_cover_boundary_target :
    let tracer := new .target .null .straight (.fresh Mask.target.size .all)
    tracer.IsFreshForAll ∧ ∃ tours last, tracer.Loop tours last ∧
      Mask.target.IsCoveredBy .straight tours :=
  ⟨isFreshForAll_new .target .null .straight,
    exists_tours_cover_boundary (isFreshForAll_new .target .null .straight)⟩

/-- The level at which the loop finds a boundary counts the boundaries around its start. -/
theorem exists_tours_with_nesting_levels (h : tracer.IsFreshForAll) :
    ∃ tours last, tracer.Loop tours last ∧ tracer.mask.HasNestingLevels tours := by
  obtain ⟨last, hloop⟩ := h.exists_loop
  exact ⟨_, last, hloop, tracer.mask.hasNestingLevels_allTours tracer.connectivity⟩

theorem exists_tours_with_nesting_levels_target :
    let tracer := new .target .null .straight (.fresh Mask.target.size .all)
    tracer.IsFreshForAll ∧ ∃ tours last, tracer.Loop tours last ∧
      Mask.target.HasNestingLevels tours :=
  ⟨isFreshForAll_new .target .null .straight,
    exists_tours_with_nesting_levels (isFreshForAll_new .target .null .straight)⟩

end Tracer

end ContourTracing
