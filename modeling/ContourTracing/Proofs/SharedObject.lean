import ContourTracing.Proofs.ClosedWalk

/-!
# Objects that masks share

A walk along an object looks at neighbours of its pixels only, and a neighbour of a pixel is set
exactly if it belongs to the same object. With sides connected, the pixel diagonally ahead need not
be a neighbour; the walk looks at it only past a pixel ahead that belongs to the object. So a
boundary of an object is followed in the same way on every mask that has this object, whatever else
is set there.
-/

namespace ContourTracing

open Function

namespace Mask

variable {mask mask' : Mask} {connectivity : Connectivity} {K : Set Pixel} {p q : Pixel}
  {s t : Position}

/-! ## One object -/

/-- A neighbour of a pixel of an object is set exactly if it belongs to the object. -/
theorem mem_objectPixels_iff_of_adjacent (hK : K ∈ mask.objects connectivity) (hp : p ∈ K)
    (hadj : connectivity.Adjacent p q) : q ∈ mask.objectPixels ↔ q ∈ K := by
  obtain ⟨hset, rfl⟩ := Connectivity.eq_component_of_mem hK hp
  constructor
  · exact Connectivity.mem_component_of_adjacent Connectivity.mem_component_self hadj
  · exact fun hq ↦ Connectivity.component_subset hset hq

/-- The boundary sides at pixels of an object are the sides towards pixels outside of it. -/
theorem isBoundary_iff_of_mem (hK : K ∈ mask.objects connectivity) (hs : s.pixel ∈ K) :
    mask.IsBoundary s ↔ s.across ∉ K := by
  rw [isBoundary_iff, mem_objectPixels_iff_of_adjacent hK hs (connectivity.adjacent_across s)]
  exact and_iff_right (Connectivity.eq_component_of_mem hK hs).1

theorem pixel_successor_mem (hK : K ∈ mask.objects connectivity) (hs : s.pixel ∈ K) :
    (mask.successor connectivity s).pixel ∈ K := by
  obtain ⟨-, heq⟩ := Connectivity.eq_component_of_mem hK hs
  rw [heq]
  exact pixel_successor_mem_objectAt mask connectivity s

/-- Without corners a pixel with boundary all around is an object by itself. -/
theorem singleton_mem_objects (h : ∀ side, mask.IsBoundary ⟨p.1, p.2, side⟩) :
    {p} ∈ mask.objects .straight := by
  refine ⟨p, (isBoundary_iff.1 (h .left)).1, Set.eq_singleton_iff_unique_mem.2
    ⟨Connectivity.mem_component_self, fun q hq ↦ ?_⟩⟩
  obtain rfl | ⟨r, ⟨hadj, hr⟩, -⟩ := Relation.ReflTransGen.cases_head hq
  · rfl
  · -- a chain to elsewhere would leave through one of the four sides
    obtain ⟨⟨x, y, side⟩, rfl, rfl⟩ | ⟨hdiagonal, -⟩ := Connectivity.exists_of_adjacent hadj
    · exact absurd hr (isBoundary_iff.1 (h side)).2
    · cases hdiagonal

/-! ## One object on two masks -/

section Shared

variable (hK : K ∈ mask.objects connectivity) (hK' : K ∈ mask'.objects connectivity)

include hK hK'

theorem isSet_eq_of_adjacent (hp : p ∈ K) (hadj : connectivity.Adjacent p q) :
    mask'.isSet q.1 q.2 = mask.isSet q.1 q.2 := by
  rw [Bool.eq_iff_iff]
  exact (mem_objectPixels_iff_of_adjacent hK' hp hadj).trans
    (mem_objectPixels_iff_of_adjacent hK hp hadj).symm

/-- From a pixel of the object both walks turn alike. -/
theorem chooseTurn_eq_of_mem (hs : s.pixel ∈ K) :
    mask'.chooseTurn connectivity s = mask.chooseTurn connectivity s := by
  have hadj : connectivity.Adjacent s.pixel s.ahead :=
    connectivity.adjacent_across ⟨s.x, s.y, s.side.clockwise⟩
  have hahead := isSet_eq_of_adjacent hK hK' hs hadj
  cases connectivity with
  | diagonal =>
    have hacross := isSet_eq_of_adjacent hK hK' hs (Connectivity.adjacent_aheadAcross s)
    simp only [chooseTurn, hahead, hacross]
  | straight =>
    cases hset : mask.isSet s.ahead.1 s.ahead.2 with
    | false => simp only [chooseTurn, hahead, hset, Bool.false_eq_true, if_false]
    | true =>
      -- the pixel ahead belongs to the object, and the one diagonally ahead is its neighbour
      have hmem : s.ahead ∈ K := (mem_objectPixels_iff_of_adjacent hK hs hadj).1 hset
      have hacross := isSet_eq_of_adjacent hK hK' hmem
        (Connectivity.adjacent_across _ ⟨s.ahead.1, s.ahead.2, s.side⟩)
      simp only [chooseTurn, hahead, hset, if_true]
      exact congrArg (fun isSet ↦ if isSet = true then Turn.diagonal else .straight) hacross

theorem chooseStep_eq_of_mem (hs : s.pixel ∈ K) :
    mask'.chooseStep connectivity s = mask.chooseStep connectivity s := by
  rw [chooseStep, chooseTurn_eq_of_mem hK hK' hs, chooseStep]

theorem successor_eq_of_mem (hs : s.pixel ∈ K) :
    mask'.successor connectivity s = mask.successor connectivity s := by
  rw [successor, chooseStep_eq_of_mem hK hK' hs, successor]

theorem iterate_eq_of_mem (hs : s.pixel ∈ K) (n : ℕ) :
    (mask'.successor connectivity)^[n] s = (mask.successor connectivity)^[n] s := by
  induction n generalizing s with
  | zero => rfl
  | succ n ih =>
    rw [iterate_succ_apply, iterate_succ_apply, successor_eq_of_mem hK hK' hs,
      ih (pixel_successor_mem hK hs)]

theorem period_eq_of_mem (hs : s.pixel ∈ K) :
    mask'.period connectivity s = mask.period connectivity s := by
  refine minimalPeriod_eq_minimalPeriod_iff.2 fun n ↦ ?_
  rw [IsPeriodicPt, IsFixedPt, iterate_eq_of_mem hK hK' hs]
  rfl

theorem arrivals_eq_of_mem (hs : s.pixel ∈ K) (count : ℕ) :
    mask'.arrivals connectivity count s = mask.arrivals connectivity count s := by
  induction count generalizing s with
  | zero => rfl
  | succ count ih =>
    rw [arrivals, arrivals, successor_eq_of_mem hK hK' hs, chooseStep_eq_of_mem hK hK' hs,
      ih (pixel_successor_mem hK hs)]

theorem circuit_eq_of_mem (hs : s.pixel ∈ K) :
    mask'.circuit connectivity s = mask.circuit connectivity s := by
  rw [circuit, circuit, period_eq_of_mem hK hK' hs]
  exact List.map_congr_left fun n _ ↦ iterate_eq_of_mem hK hK' hs (n + 1)

end Shared

end Mask

namespace Tracer

variable {tracer tracer' : Tracer} {K : Set Pixel} {s : Position}

/-- If two masks share an object, then scans from a side of it make the same steps to the same
positions on both, and leave the same counters and the same area. The masks need not even have the
same size. -/
theorem exists_scans_of_shared_object (hconnectivity : tracer'.connectivity = tracer.connectivity)
    (hK : K ∈ tracer.mask.objects tracer.connectivity)
    (hK' : K ∈ tracer'.mask.objects tracer.connectivity) (hs : s.pixel ∈ K)
    (hacross : s.across ∉ K) (interval interval' : ℕ) :
    ∃ sides last last', tracer.IsClosedScan interval s sides last ∧
      tracer'.IsClosedScan interval' s sides last' ∧
      (tracer'.place s).arrivals sides.length = (tracer.place s).arrivals sides.length ∧
      last'.tally = last.tally := by
  have hb := (Mask.isBoundary_iff_of_mem hK hs).2 hacross
  have hb' := (Mask.isBoundary_iff_of_mem hK' hs).2 hacross
  have hclosed := isClosedScan_circuit hb interval
  have hclosed' := isClosedScan_circuit hb' interval'
  rw [hconnectivity, Mask.circuit_eq_of_mem hK hK' hs] at hclosed'
  refine ⟨_, _, _, hclosed, hclosed', ?_, ?_⟩
  · have hperiod := Mask.period_eq_of_mem hK hK' hs
    have harrivals := arrivals_place hb'
    rw [hconnectivity, hperiod, Mask.arrivals_eq_of_mem hK hK' hs] at harrivals
    rw [Mask.length_circuit, harrivals, arrivals_place hb]
  · rw [tally_scanned_place, tally_scanned_place, hconnectivity, Mask.period_eq_of_mem hK hK' hs,
      Mask.arrivals_eq_of_mem hK hK' hs]

/-- Where the object touches another one in a corner, the scan is that of the object alone. -/
theorem exists_scans_of_shared_object_contact :
    let tracer := new ⟨2, 2, #[true, false, false, true], rfl⟩ .null .straight .nothing
    let tracer' := new ⟨2, 2, #[true, false, false, false], rfl⟩ .null .straight .nothing
    let s : Position := ⟨0, 0, .right⟩
    ({(0, 0)} : Set Pixel) ∈ tracer.mask.objects .straight ∧
      ({(0, 0)} : Set Pixel) ∈ tracer'.mask.objects .straight ∧
      ∃ sides last last', tracer.IsClosedScan 1 s sides last ∧
        tracer'.IsClosedScan 2 s sides last' ∧
        (tracer'.place s).arrivals sides.length = (tracer.place s).arrivals sides.length ∧
        last'.tally = last.tally := by
  intro tracer tracer' s
  have hK : ({(0, 0)} : Set Pixel) ∈ tracer.mask.objects .straight :=
    Mask.singleton_mem_objects fun side ↦ by cases side <;> decide
  have hK' : ({(0, 0)} : Set Pixel) ∈ tracer'.mask.objects .straight :=
    Mask.singleton_mem_objects fun side ↦ by cases side <;> decide
  have hs : s.pixel ∈ ({(0, 0)} : Set Pixel) := Set.mem_singleton _
  have hacross : s.across ∉ ({(0, 0)} : Set Pixel) := fun h ↦ absurd h (by decide)
  have hconnectivity : tracer'.connectivity = tracer.connectivity := rfl
  exact ⟨hK, hK', exists_scans_of_shared_object hconnectivity hK hK' hs hacross 1 2⟩

end Tracer

end ContourTracing
