import Mathlib.Analysis.Real.Sqrt
import ContourTracing.Proofs.ContourArea

/-!
# Lengths of contours

The points that belong to two consecutive sides are corners, centres or middles, and how far they
are from each other depends on the kind of one step only. The point that belongs to the last side
of a boundary and the first point are consecutive too. So the contour that a trace collects is as
long as the counters of a scan say, in real numbers.
-/

namespace ContourTracing

open Finset

noncomputable def Length.toReal (length : Length) : ℝ :=
  length.whole + length.halfDiagonals * (√2 / 2)

/-! ## Closed polylines -/

namespace Polyline

/-- The length of a vector with rational coordinates. -/
noncomputable def norm (dx dy : ℚ) : ℝ :=
  √((dx : ℝ) ^ 2 + (dy : ℝ) ^ 2)

/-- The length of a closed polyline in real numbers. -/
noncomputable def exactLength (points : List Point) : ℝ :=
  length norm List.sum points

/-- The distances from each point to the next and from the last one to the first. -/
noncomputable def sideLengths (points : List Point) : List ℝ :=
  (sides points).map fun (p, q) ↦ norm (q.1 - p.1) (q.2 - p.2)

theorem sum_sideLengths {points : List Point} (h : 2 ≤ points.length) :
    (sideLengths points).sum = exactLength points := by
  rw [exactLength, length, if_neg (by omega)]
  rfl

theorem sideLengths_map_range {f : ℕ → Point} {n : ℕ} (hn : 2 ≤ n) (hf : f n = f 0) :
    sideLengths ((List.range n).map f) =
      (List.range n).map fun i ↦ norm ((f (i + 1)).1 - (f i).1) ((f (i + 1)).2 - (f i).2) := by
  rw [sideLengths, sides, rotateLeft_map_range hn hf, List.zip_map', List.map_map]
  rfl

theorem norm_halved {p q : ℤ × ℤ} {r : ℝ} (hr : 0 ≤ r)
    (h : (2 * r) ^ 2 = ((q.1 - p.1) ^ 2 + (q.2 - p.2) ^ 2 : ℤ)) :
    norm ((halved q).1 - (halved p).1) ((halved q).2 - (halved p).2) = r := by
  have hsquare : (((halved q).1 - (halved p).1 : ℚ) : ℝ) ^ 2 +
      (((halved q).2 - (halved p).2 : ℚ) : ℝ) ^ 2 = r ^ 2 := by
    simp only [halved]
    push_cast at h ⊢
    linarith
  rw [norm, hsquare, Real.sqrt_sq hr]

end Polyline

/-! ## One step of a contour -/

namespace ContourLine

/-- Twice the point that belongs to a side. -/
def doubled : ContourLine → Position → ℤ × ℤ
  | corners => Position.corner
  | centers => Position.center
  | segments => Position.middle

/-- How far a step of the given kind leads from one point to the next. -/
noncomputable def sideLength : ContourLine → Turn → ℝ
  | corners, _ => 1
  | centers, .straight => 1
  | centers, .diagonal => √2
  | centers, .rotation => 0
  | segments, .straight => 1
  | segments, .diagonal => √2 / 2
  | segments, .rotation => √2 / 2

theorem sideLength_nonneg (line : ContourLine) (turn : Turn) : 0 ≤ line.sideLength turn := by
  cases line <;> cases turn <;> simp only [sideLength] <;> positivity

/-- The squared distance between two doubled points, as an integer. -/
def doubledSquare : ContourLine → Turn → ℤ
  | corners, _ => 4
  | centers, .straight => 4
  | centers, .diagonal => 8
  | centers, .rotation => 0
  | segments, .straight => 4
  | segments, .diagonal => 2
  | segments, .rotation => 2

theorem sq_two_mul_sideLength (line : ContourLine) (turn : Turn) :
    (2 * line.sideLength turn) ^ 2 = line.doubledSquare turn := by
  have hsqrt : √2 ^ 2 = (2 : ℝ) := Real.sq_sqrt (by norm_num)
  cases line <;> cases turn <;> simp [sideLength, doubledSquare, mul_pow, div_pow, hsqrt] <;>
    norm_num

theorem sq_doubled_move (line : ContourLine) (s : Position) (turn : Turn) :
    let p := line.doubled s
    let q := line.doubled (s.move (s.side.step turn))
    (q.1 - p.1) ^ 2 + (q.2 - p.2) ^ 2 = line.doubledSquare turn := by
  obtain ⟨x, y, side⟩ := s
  cases line <;> cases side <;> cases turn <;>
    simp [doubled, doubledSquare, Position.corner, Position.center, Position.middle,
      Position.move, Side.step, Side.along, Side.outward, Side.clockwise,
      Side.counterclockwise] <;> ring

/-- A step leads as far as its kind says, for every style of contour line. -/
theorem norm_doubled_move (line : ContourLine) (s : Position) (turn : Turn) :
    let p := halved (line.doubled s)
    let q := halved (line.doubled (s.move (s.side.step turn)))
    Polyline.norm (q.1 - p.1) (q.2 - p.2) = line.sideLength turn := by
  apply Polyline.norm_halved (line.sideLength_nonneg turn)
  rw [line.sq_doubled_move s turn, sq_two_mul_sideLength]

end ContourLine

/-! ## Points of a trace -/

namespace Mask

variable {mask : Mask} {connectivity : Connectivity} {s : Position}

theorem pointAt_segments (mask : Mask) (connectivity : Connectivity) (s : Position) (n : ℕ) :
    mask.pointAt connectivity .segments s n =
      halved (mask.walk connectivity s (n + 1)).middle :=
  ContourLine.point_segments ..

/-- How far the step after so many steps leads. -/
noncomputable def lengthAt (mask : Mask) (connectivity : Connectivity) (line : ContourLine)
    (s : Position) (n : ℕ) : ℝ :=
  line.sideLength (mask.chooseTurn connectivity (mask.walk connectivity s n))

theorem lengthAt_period (mask : Mask) (connectivity : Connectivity) (line : ContourLine)
    (s : Position) : mask.lengthAt connectivity line s (mask.period connectivity s) =
      mask.lengthAt connectivity line s 0 := by
  rw [lengthAt, walk_period]
  rfl

theorem norm_walk (mask : Mask) (connectivity : Connectivity) (line : ContourLine) (s : Position)
    (n : ℕ) :
    let p := halved (line.doubled (mask.walk connectivity s n))
    let q := halved (line.doubled (mask.walk connectivity s (n + 1)))
    Polyline.norm (q.1 - p.1) (q.2 - p.2) = mask.lengthAt connectivity line s n := by
  rw [walk_succ]
  exact line.norm_doubled_move _ _

/-- From one point of a trace to the next it is as far as the later step leads. -/
theorem norm_pointAt (mask : Mask) (connectivity : Connectivity) (line : ContourLine)
    (s : Position) (n : ℕ) :
    let p := mask.pointAt connectivity line s n
    let q := mask.pointAt connectivity line s (n + 1)
    Polyline.norm (q.1 - p.1) (q.2 - p.2) = mask.lengthAt connectivity line s (n + 1) := by
  cases line with
  | corners =>
    rw [pointAt_corners, pointAt_corners]
    exact mask.norm_walk connectivity .corners s n
  | centers =>
    rw [pointAt_centers, pointAt_centers]
    exact mask.norm_walk connectivity .centers s (n + 1)
  | segments =>
    rw [pointAt_segments, pointAt_segments]
    exact mask.norm_walk connectivity .segments s (n + 1)

theorem sideLengths_eq (h : mask.IsBoundary s) (line : ContourLine) :
    Polyline.sideLengths ((List.range (mask.period connectivity s)).map
        (mask.pointAt connectivity line s)) =
      (List.range (mask.period connectivity s)).map fun n ↦
        mask.lengthAt connectivity line s (n + 1) := by
  have hperiod : 3 ≤ mask.period connectivity s := three_le_period h
  rw [Polyline.sideLengths_map_range (by omega) (mask.pointAt_period connectivity line s)]
  exact List.map_congr_left fun n _ ↦ mask.norm_pointAt connectivity line s n

end Mask

/-! ## Lengths of whole boundaries -/

theorem Tally.toReal_lengthOn {tally : Tally} (h : tally.nonStraight ≤ tally.steps)
    (line : ContourLine) : (tally.lengthOn line).toReal = tally.weigh line.sideLength := by
  have hsteps : tally.steps = tally.straights + (tally.diagonals + tally.rotations) :=
    (Nat.sub_add_cancel h).symm
  cases line with
  | corners =>
    simp only [lengthOn, Length.toReal, weigh, ContourLine.sideLength, nsmul_eq_mul]
    rw [hsteps]
    push_cast
    ring
  | centers =>
    simp only [lengthOn, Length.toReal, weigh, ContourLine.sideLength, nsmul_eq_mul]
    push_cast
    ring
  | segments =>
    simp only [lengthOn, Length.toReal, weigh, ContourLine.sideLength, nsmul_eq_mul, nonStraight]
    push_cast
    ring

namespace Tracer

variable {found : Tracer} {s : Position}

theorem nonStraight_scanned_le (htally : found.tally = {}) (s : Position) :
    (found.scanned s).tally.nonStraight ≤ (found.scanned s).tally.steps := by
  rw [scanned, tally_foldl_arrive, htally]
  exact Tally.nonStraight_foldl_record_le _ le_rfl

theorem exactLength_scanned (hs : found.mask.IsBoundary s) (htally : found.tally = {})
    (line : ContourLine) :
    Polyline.exactLength ((List.range (found.mask.period found.connectivity s)).map
      (found.mask.pointAt found.connectivity line s)) =
        ((found.scanned s).tally.lengthOn line).toReal := by
  have hperiod : 3 ≤ found.mask.period found.connectivity s := Mask.three_le_period hs
  have hlength : 2 ≤ ((List.range (found.mask.period found.connectivity s)).map
      (found.mask.pointAt found.connectivity line s)).length := by
    rw [List.length_map, List.length_range]
    omega
  calc
    _ = ∑ n ∈ range (found.mask.period found.connectivity s),
        found.mask.lengthAt found.connectivity line s (n + 1) := by
      rw [← Polyline.sum_sideLengths hlength, Mask.sideLengths_eq hs]
      rfl
    _ = ∑ n ∈ range (found.mask.period found.connectivity s),
        found.mask.lengthAt found.connectivity line s n :=
      sum_range_succ_of_periodic (found.mask.lengthAt_period found.connectivity line s)
    _ = (found.scanned s).tally.weigh line.sideLength :=
      (weigh_scanned htally s line.sideLength).symm
    _ = _ := (Tally.toReal_lengthOn (nonStraight_scanned_le htally s) line).symm

/-- The first point belongs to the first step, so that the first side belongs to the second step
and the side that closes the contour to the first one. -/
theorem sideLengths_eq_rotateLeft (hs : found.mask.IsBoundary s)
    (hplace : found.placement = some (.initial s)) (line : ContourLine) :
    Polyline.sideLengths ((List.range (found.mask.period found.connectivity s)).map
        (found.mask.pointAt found.connectivity line s)) =
      ((found.arrivals (found.mask.period found.connectivity s)).map fun arrival ↦
        line.sideLength arrival.step.turn).rotateLeft 1 := by
  have hperiod : 3 ≤ found.mask.period found.connectivity s := Mask.three_le_period hs
  have hturns : (found.arrivals (found.mask.period found.connectivity s)).map
        (fun arrival ↦ line.sideLength arrival.step.turn) =
      (List.range (found.mask.period found.connectivity s)).map
        (found.mask.lengthAt found.connectivity line s) := by
    rw [(scan_eq hs hplace 1).2, Mask.arrivals_eq, List.map_map]
    apply List.map_congr_left
    intro n _
    exact congrArg line.sideLength (Side.turn_step ..)
  rw [Mask.sideLengths_eq hs, hturns, Polyline.rotateLeft_map_range (by omega)
    (found.mask.lengthAt_period found.connectivity line s)]

/-- After a scan of a whole boundary, the counters give the length of the contour that a trace
collects, and every side of this contour is as long as its step says. -/
theorem exists_trace_with_length (hs : found.mask.IsBoundary s)
    (hplace : found.placement = some (.initial s)) (htally : found.tally = {})
    (line : ContourLine) (interval : ℕ) :
    ∃ last points length,
      (Stack.bare found).scan .silent interval =
        ⟨.ok last.tally.steps, last.tally.steps, .bare last⟩ ∧
      (Stack.bare found).trace (.member (.line line)) .silent interval =
        ⟨.ok points, points.length, .bare last⟩ ∧
      last.perimeter (.member (.line line)) = .ok length ∧
      Polyline.exactLength points = length.toReal ∧
      Polyline.sideLengths points = ((found.arrivals points.length).map fun arrival ↦
        line.sideLength arrival.step.turn).rotateLeft 1 := by
  refine ⟨found.scanned s, _, _, ?_, trace_eq_pointAt hs hplace line interval, rfl,
    exactLength_scanned hs htally line, ?_⟩
  · rw [(scan_eq hs hplace interval).1, steps_scanned htally]
  · rw [List.length_map, List.length_range]
    exact sideLengths_eq_rotateLeft hs hplace line

theorem exists_trace_with_length_target :
    ∃ found, (new .target .null .diagonal .nothing).goTo 0 1 .right = .ok found ∧
      found.mask.IsBoundary ⟨0, 1, .right⟩ ∧ found.placement = some (.initial ⟨0, 1, .right⟩) ∧
      found.tally = {} ∧ ∃ last points length,
        (Stack.bare found).scan .silent 1 =
          ⟨.ok last.tally.steps, last.tally.steps, .bare last⟩ ∧
        (Stack.bare found).trace (.member (.line .centers)) .silent 1 =
          ⟨.ok points, points.length, .bare last⟩ ∧
        last.perimeter (.member (.line .centers)) = .ok length ∧
        Polyline.exactLength points = length.toReal ∧
        Polyline.sideLengths points = ((found.arrivals points.length).map fun arrival ↦
          ContourLine.centers.sideLength arrival.step.turn).rotateLeft 1 := by
  let found := (new .target .null .diagonal .nothing).place ⟨0, 1, .right⟩
  have hs : found.mask.IsBoundary ⟨0, 1, .right⟩ := by decide
  exact ⟨found, goTo_eq_place hs, hs, rfl, rfl, exists_trace_with_length hs rfl rfl .centers 1⟩

end Tracer

end ContourTracing
