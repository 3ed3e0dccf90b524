import ContourTracing.Proofs.SegmentContour

/-!
# Areas of contours

The counters sum up the area within a boundary from the columns of its vertical sides. The polygon
through the corners that a trace passes has exactly this area. The polygon through the centres of
pixels loses half a pixel at every straight step and a quarter at every other one. Both follow from
an identity for the triangle between the origin and two consecutive points, in which everything
but the columns and the kind of the step cancels out along a closed walk.

Corners and centres are kept doubled.
-/

namespace ContourTracing

open Finset

/-- Eighths of a pixel that the polygon through the centres loses at a step. -/
def Turn.loss : Turn → ℤ
  | .straight => 4
  | .diagonal | .rotation => 2

namespace Position

/-- Twice the centre of the pixel. -/
def center (s : Position) : ℤ × ℤ :=
  (2 * s.x, 2 * s.y)

def cornerBias (s : Position) : ℤ :=
  (2 - s.corner.1) * s.corner.2

def centerBias (s : Position) : ℤ :=
  4 * (1 - s.x) * s.y - (4 * s.x - 2) * s.side.outward.2

theorem cross_corner_move (s : Position) (turn : Turn) :
    let t := s.move (s.side.step turn)
    cross s.corner t.corner = 8 * Tally.areaAt t + (t.cornerBias - s.cornerBias) := by
  obtain ⟨x, y, side⟩ := s
  cases side <;> cases turn <;>
    simp [cross, cornerBias, corner, middle, move, Side.step, Side.along, Side.outward,
      Side.clockwise, Side.counterclockwise, Tally.areaAt] <;> ring

theorem cross_center_move (s : Position) (turn : Turn) :
    let t := s.move (s.side.step turn)
    cross s.center t.center =
      4 * Tally.areaAt s + 4 * Tally.areaAt t - turn.loss + (t.centerBias - s.centerBias) := by
  obtain ⟨x, y, side⟩ := s
  cases side <;> cases turn <;>
    simp [cross, centerBias, center, move, Side.step, Side.along, Side.outward,
      Side.clockwise, Side.counterclockwise, Tally.areaAt, Turn.loss] <;> ring

end Position

/-! ## Points of a trace -/

namespace ContourLine

/-- The corner between two sides is where the side before the step ends. -/
theorem point_corners_move (s : Position) (turn : Turn) :
    corners.point (s.move (s.side.step turn)) (s.side.step turn) = halved s.corner := by
  obtain ⟨x, y, side⟩ := s
  cases side <;> cases turn <;>
    simp [point, halved, Position.corner, Position.middle, Position.move, Step.doubledVertex,
      Step.isStraight, Step.isHorizontal, Step.isVertical, Step.isRotation, Side.isVertical,
      Side.isHorizontal, Side.step, Side.along, Side.outward, Side.clockwise,
      Side.counterclockwise] <;> constructor <;> ring

theorem point_centers (s : Position) (step : Step) : centers.point s step = halved s.center := by
  simp [point, halved, Position.center]

end ContourLine

namespace Mask

variable {mask : Mask} {connectivity : Connectivity} {s : Position}

theorem pointAt_corners (mask : Mask) (connectivity : Connectivity) (s : Position) (n : ℕ) :
    mask.pointAt connectivity .corners s n = halved (mask.walk connectivity s n).corner := by
  rw [pointAt, walk_succ]
  exact ContourLine.point_corners_move ..

theorem pointAt_centers (mask : Mask) (connectivity : Connectivity) (s : Position) (n : ℕ) :
    mask.pointAt connectivity .centers s n = halved (mask.walk connectivity s (n + 1)).center :=
  ContourLine.point_centers ..

/-! ## Areas -/

/-- The polygon through the corners has the area that the sides sum up. -/
theorem exactArea_corners (h : mask.IsBoundary s) :
    Polyline.exactArea ((List.range (mask.period connectivity s)).map
      (mask.pointAt connectivity .corners s)) =
        ((mask.circuit connectivity s).map Tally.areaAt).sum := by
  have hcross (s : Position) (turn : Turn) := s.cross_corner_move turn
  have hsum := sum_cross_walk Position.corner Position.cornerBias 0 8 (fun _ ↦ 0)
    (fun s turn ↦ by rw [hcross, zero_mul, zero_add, sub_zero]) mask connectivity s
  have hpoints : mask.pointAt connectivity .corners s =
      fun n ↦ halved (mask.walk connectivity s (n + 0)).corner := by
    funext n
    exact mask.pointAt_corners connectivity s n
  rw [hpoints, exactArea_map_walk h, hsum, sum_const_zero]
  push_cast
  ring

theorem exactArea_centers (h : mask.IsBoundary s) :
    Polyline.exactArea ((List.range (mask.period connectivity s)).map
      (mask.pointAt connectivity .centers s)) =
        ((mask.circuit connectivity s).map Tally.areaAt).sum -
          ((∑ n ∈ range (mask.period connectivity s),
            (mask.chooseTurn connectivity (mask.walk connectivity s n)).loss : ℤ) : ℚ) / 8 := by
  have hsum := sum_cross_walk Position.center Position.centerBias 4 4 Turn.loss
    Position.cross_center_move mask connectivity s
  have hpoints : mask.pointAt connectivity .centers s =
      fun n ↦ halved (mask.walk connectivity s (n + 1)).center := by
    funext n
    exact mask.pointAt_centers connectivity s n
  rw [hpoints, exactArea_map_walk h, hsum]
  push_cast
  ring

end Mask

namespace Tracer

variable {found : Tracer} {s : Position}

theorem areaOn_centers_scanned (hs : found.mask.IsBoundary s) (htally : found.tally = {}) :
    (found.scanned s).tally.areaOn .centers = Polyline.exactArea ((List.range
      (found.mask.period found.connectivity s)).map
        (found.mask.pointAt found.connectivity .centers s)) := by
  have hloss := weigh_scanned htally s Turn.loss
  rw [Mask.exactArea_centers hs, ← area_scanned htally, ← hloss]
  simp only [Tally.areaOn, Tally.weigh, Turn.loss, Tally.nonStraight, nsmul_eq_mul]
  push_cast
  ring

/-- After a scan of a whole boundary, the areas that the counters give for the contours through
the corners and through the centres are those of the contours that a trace collects. -/
theorem exists_traces_with_areas (hs : found.mask.IsBoundary s)
    (hplace : found.placement = some (.initial s)) (htally : found.tally = {}) (interval : ℕ) :
    ∃ last corners centers,
      (Stack.bare found).scan .silent interval =
        ⟨.ok last.tally.steps, last.tally.steps, .bare last⟩ ∧
      (Stack.bare found).trace (.member (.line .corners)) .silent interval =
        ⟨.ok corners, corners.length, .bare last⟩ ∧
      (Stack.bare found).trace (.member (.line .centers)) .silent interval =
        ⟨.ok centers, centers.length, .bare last⟩ ∧
      Polyline.exactArea corners = last.tally.area ∧
      last.area (.member (.line .corners)) = .ok (last.tally.area : ℚ) ∧
      Polyline.exactArea centers = last.tally.area - last.tally.straights / 2 -
        (last.tally.diagonals + last.tally.rotations) / 4 ∧
      last.area (.member (.line .centers)) = .ok (Polyline.exactArea centers) := by
  have hcenters := areaOn_centers_scanned hs htally
  refine ⟨found.scanned s, _, _, ?_, trace_eq_pointAt hs hplace .corners interval,
    trace_eq_pointAt hs hplace .centers interval, ?_, rfl, ?_, congrArg Except.ok hcenters⟩
  · rw [(scan_eq hs hplace interval).1, steps_scanned htally]
  · rw [Mask.exactArea_corners hs, area_scanned htally]
  · rw [← hcenters, Tally.areaOn, Tally.nonStraight, Nat.cast_add]

theorem exists_traces_with_areas_target :
    ∃ found, (new .target .null .diagonal .nothing).goTo 0 1 .right = .ok found ∧
      found.mask.IsBoundary ⟨0, 1, .right⟩ ∧ found.placement = some (.initial ⟨0, 1, .right⟩) ∧
      found.tally = {} ∧ ∃ last corners centers,
        (Stack.bare found).scan .silent 1 =
          ⟨.ok last.tally.steps, last.tally.steps, .bare last⟩ ∧
        (Stack.bare found).trace (.member (.line .corners)) .silent 1 =
          ⟨.ok corners, corners.length, .bare last⟩ ∧
        (Stack.bare found).trace (.member (.line .centers)) .silent 1 =
          ⟨.ok centers, centers.length, .bare last⟩ ∧
        Polyline.exactArea corners = last.tally.area ∧
        last.area (.member (.line .corners)) = .ok (last.tally.area : ℚ) ∧
        Polyline.exactArea centers = last.tally.area - last.tally.straights / 2 -
          (last.tally.diagonals + last.tally.rotations) / 4 ∧
        last.area (.member (.line .centers)) = .ok (Polyline.exactArea centers) := by
  let found := (new .target .null .diagonal .nothing).place ⟨0, 1, .right⟩
  have hs : found.mask.IsBoundary ⟨0, 1, .right⟩ := by decide
  exact ⟨found, goTo_eq_place hs, hs, rfl, rfl, exists_traces_with_areas hs rfl rfl 1⟩

end Tracer

end ContourTracing
