import ContourTracing.Proofs.ClosedWalk
import ContourTracing.Proofs.Enclosed
import ContourTracing.Proofs.Shoelace
import ContourTracing.Proofs.TracedPoints

/-!
# Contours through the middles of sides

A scan of a whole boundary counts four rotations more than diagonal steps around an object, and
four fewer around a hole. The polygon through the middles of the sides loses an eighth of a pixel
at every rotation and gains one at every diagonal step, so that its area differs from the area of
the boundary by half a pixel, whatever the shape.
-/

namespace ContourTracing

open Finset

namespace Position

def midpoint (s : Position) : Point :=
  (s.middle.1 / 2, s.middle.2 / 2)

/-- What cancels out along a closed walk. -/
def bias (s : Position) : ℤ :=
  (2 - s.middle.1) * s.middle.2

/-- The triangle between the origin and the middles of two consecutive sides. -/
theorem cross_middle_move (s : Position) (turn : Turn) :
    let t := s.move (s.side.step turn)
    cross s.middle t.middle =
      4 * Tally.areaAt s + 4 * Tally.areaAt t - turn.quarters + (t.bias - s.bias) := by
  obtain ⟨x, y, side⟩ := s
  cases side <;> cases turn <;>
    simp [cross, middle, bias, move, Side.step, Side.along, Side.outward, Side.clockwise,
      Side.counterclockwise, Tally.areaAt, Turn.quarters] <;> ring

end Position

theorem ContourLine.point_segments (s : Position) (step : Step) :
    segments.point s step = s.midpoint := by
  simp only [point, Position.midpoint, Position.middle, Prod.fst_add, Prod.snd_add]
  push_cast
  ext <;> ring

namespace Mask

variable {mask : Mask} {connectivity : Connectivity} {e s : Position}

/-- The area within the middles of the sides of a circuit. -/
theorem exactArea_circuit (h : mask.IsBoundary s) :
    Polyline.exactArea ((mask.circuit connectivity s).map Position.midpoint) =
      ((mask.circuit connectivity s).map Tally.areaAt).sum -
        ((mask.circuit connectivity s).map (mask.quarters connectivity)).sum / (8 : ℚ) := by
  have hsum := sum_cross_walk Position.middle Position.bias 4 4 Turn.quarters
    Position.cross_middle_move mask connectivity s
  have hpoints : (mask.circuit connectivity s).map Position.midpoint =
      (List.range (mask.period connectivity s)).map fun n ↦
        halved (mask.walk connectivity s (n + 1)).middle := by
    rw [circuit, List.map_map]
    rfl
  rw [hpoints, exactArea_map_walk h, hsum, sum_map_circuit mask connectivity s (mask.quarters _)]
  push_cast
  simp only [quarters]
  ring

end Mask

/-! ## Areas of whole boundaries -/

namespace Tracer

variable {found : Tracer} {s : Position}

theorem quarters_scanned (htally : found.tally = {}) (s : Position) :
    ((found.scanned s).tally.rotations : ℤ) - (found.scanned s).tally.diagonals =
      ((found.mask.circuit found.connectivity s).map
        (found.mask.quarters found.connectivity)).sum := by
  calc
    _ = (found.scanned s).tally.weigh Turn.quarters := by
      simp only [Tally.weigh, Turn.quarters, nsmul_eq_mul]
      ring
    _ = ∑ n ∈ range (found.mask.period found.connectivity s),
        found.mask.quarters found.connectivity (found.mask.walk found.connectivity s n) :=
      weigh_scanned htally s Turn.quarters
    _ = _ := (found.mask.sum_map_circuit found.connectivity s _).symm

theorem area_scanned (htally : found.tally = {}) (s : Position) :
    (found.scanned s).tally.area =
      ((found.mask.circuit found.connectivity s).map Tally.areaAt).sum := by
  rw [scanned, tally_foldl_arrive, htally, Tally.area_foldl_record, Mask.map_position_arrivals]
  exact zero_add _

/-- The counters of a whole boundary tell objects from holes, by the area and by the turns. -/
theorem counters_scanned (hs : found.mask.IsBoundary s) (htally : found.tally = {}) :
    let tally := (found.scanned s).tally
    0 < tally.area ∧ (tally.rotations : ℤ) - tally.diagonals = 4 ∨
      tally.area < 0 ∧ (tally.rotations : ℤ) - tally.diagonals = -4 := by
  obtain ⟨e, he, hse⟩ := Mask.exists_isStart found.connectivity hs
  have harea : (found.scanned s).tally.area = e.orientation *
      {p | Encloses (found.mask.circuit found.connectivity e) p}.ncard := by
    rw [area_scanned htally, ((Mask.circuit_perm he.isBoundary hse).map _).sum_eq, he.sum_areaAt]
  have hpos := he.ncard_encloses_pos
  have hquarters := quarters_scanned htally s
  rw [he.sum_quarters hse] at hquarters
  simp only [harea, hquarters, Position.orientation]
  split
  · left
    constructor <;> omega
  · right
    constructor <;> omega

/-- The area within the middles of the sides is what the counters say. -/
theorem exactArea_scanned (hs : found.mask.IsBoundary s) (htally : found.tally = {}) :
    Polyline.exactArea ((found.mask.circuit found.connectivity s).map Position.midpoint) =
      (found.scanned s).tally.areaOn .segments := by
  rw [Mask.exactArea_circuit hs, ← area_scanned htally, ← quarters_scanned htally, Tally.areaOn]
  rcases counters_scanned hs htally with ⟨harea, hquarters⟩ | ⟨harea, hquarters⟩
  · rw [if_pos harea, hquarters]
    norm_num
  · rw [if_neg harea.not_gt, hquarters]
    norm_num

/-- After a scan of a whole boundary the counters have turned once, and the closed form for the
area within the middles of the sides is the area of the contour that a trace collects. -/
theorem exists_scan_turning_once (hs : found.mask.IsBoundary s)
    (hplace : found.placement = some (.initial s)) (htally : found.tally = {}) (interval : ℕ) :
    ∃ last points,
      (Stack.bare found).scan .silent interval =
        ⟨.ok last.tally.steps, last.tally.steps, .bare last⟩ ∧
      (Stack.bare found).trace (.member (.line .segments)) .silent interval =
        ⟨.ok points, points.length, .bare last⟩ ∧
      last.tally.area ≠ 0 ∧
      (0 < last.tally.area → (last.tally.rotations : ℤ) - last.tally.diagonals = 4) ∧
      (last.tally.area < 0 → (last.tally.rotations : ℤ) - last.tally.diagonals = -4) ∧
      last.area (.member (.line .segments)) = .ok (Polyline.exactArea points) := by
  have hpoints : ((found.mask.arrivals found.connectivity
      (found.mask.period found.connectivity s) s).map fun arrival ↦
        ContourLine.segments.point arrival.position arrival.step) =
          (found.mask.circuit found.connectivity s).map Position.midpoint := by
    simp only [ContourLine.point_segments]
    rw [Mask.circuit, ← Mask.map_position_arrivals, List.map_map]
    rfl
  have hcounters := counters_scanned hs htally
  refine ⟨found.scanned s, (found.mask.circuit found.connectivity s).map Position.midpoint,
    ?_, ?_, ?_, ?_, ?_, ?_⟩
  · rw [(scan_eq hs hplace interval).1, steps_scanned htally]
  · rw [trace_eq hs hplace rfl, hpoints, List.length_map, Mask.length_circuit]
  · omega
  · omega
  · omega
  · rw [exactArea_scanned hs htally]
    rfl

theorem exists_scan_turning_once_target :
    ∃ found, (new .target .null .diagonal .nothing).goTo 0 1 .right = .ok found ∧
      found.mask.IsBoundary ⟨0, 1, .right⟩ ∧ found.placement = some (.initial ⟨0, 1, .right⟩) ∧
      found.tally = {} ∧ ∃ last points,
        (Stack.bare found).scan .silent 1 =
          ⟨.ok last.tally.steps, last.tally.steps, .bare last⟩ ∧
        (Stack.bare found).trace (.member (.line .segments)) .silent 1 =
          ⟨.ok points, points.length, .bare last⟩ ∧
        last.tally.area ≠ 0 ∧
        (0 < last.tally.area → (last.tally.rotations : ℤ) - last.tally.diagonals = 4) ∧
        (last.tally.area < 0 → (last.tally.rotations : ℤ) - last.tally.diagonals = -4) ∧
        last.area (.member (.line .segments)) = .ok (Polyline.exactArea points) := by
  let found := (new .target .null .diagonal .nothing).place ⟨0, 1, .right⟩
  have hs : found.mask.IsBoundary ⟨0, 1, .right⟩ := by decide
  exact ⟨found, goTo_eq_place hs, hs, rfl, rfl, exists_scan_turning_once hs rfl rfl 1⟩

end Tracer

end ContourTracing
