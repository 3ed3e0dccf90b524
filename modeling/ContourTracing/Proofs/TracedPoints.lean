import ContourTracing.Proofs.Tour
import ContourTracing.Proofs.Turning

/-!
# Steps and points of a trace

A trace of a whole boundary makes one step from every side of its circuit and keeps one point for
each. Every step is straight, diagonal or a rotation, so that a sum over the steps of something
that depends on their kind only can be read off the counters.
-/

namespace ContourTracing

open Finset

/-! ## Steps by kind -/

/-- The kind of a step, by the number of coordinates that it changes. -/
def Step.turn (step : Step) : Turn :=
  if step.isRotation then .rotation else if step.isDiagonal then .diagonal else .straight

@[simp]
theorem Side.turn_step (side : Side) (turn : Turn) : (side.step turn).turn = turn := by
  cases side <;> cases turn <;> decide

theorem Step.isDiagonal_of_isRotation {step : Step} (h : step.isRotation = true) :
    step.isDiagonal = false := by
  simp_all [isRotation, isDiagonal]

theorem Step.isRotation_eq (step : Step) : step.isRotation = decide (step.turn = .rotation) := by
  cases h : step.isRotation <;> cases h' : step.isDiagonal <;> simp [turn, h, h']

theorem Step.isDiagonal_eq (step : Step) : step.isDiagonal = decide (step.turn = .diagonal) := by
  cases h : step.isRotation with
  | true => simp [turn, h, isDiagonal_of_isRotation h]
  | false => cases h' : step.isDiagonal <;> simp [turn, h, h']

namespace Tally

variable {M : Type*} [AddCommMonoid M] {tally : Tally}

/-- The sum of one number for every step, by the kind of the step. -/
def weigh (tally : Tally) (weight : Turn → M) : M :=
  tally.straights • weight .straight + tally.diagonals • weight .diagonal +
    tally.rotations • weight .rotation

theorem nonStraight_record_le (h : tally.nonStraight ≤ tally.steps) (step : Step)
    (position : Position) :
    (tally.record step position).nonStraight ≤ (tally.record step position).steps := by
  simp only [nonStraight, record, Step.isDiagonal_eq, Step.isRotation_eq] at *
  cases step.turn <;> simp <;> omega

theorem nonStraight_foldl_record_le (arrivals : List Arrival)
    (h : tally.nonStraight ≤ tally.steps) :
    let tally' :=
      arrivals.foldl (fun tally arrival ↦ tally.record arrival.step arrival.position) tally
    tally'.nonStraight ≤ tally'.steps := by
  induction arrivals generalizing tally with
  | nil => exact h
  | cons arrival arrivals ih => exact ih (nonStraight_record_le h arrival.step arrival.position)

theorem straights_record (h : tally.nonStraight ≤ tally.steps) (step : Step)
    (position : Position) : (tally.record step position).straights =
      tally.straights + if step.turn = .straight then 1 else 0 := by
  simp only [straights, nonStraight, record, Step.isDiagonal_eq, Step.isRotation_eq] at *
  cases step.turn <;> simp <;> omega

theorem weigh_record (h : tally.nonStraight ≤ tally.steps) (weight : Turn → M) (step : Step)
    (position : Position) :
    (tally.record step position).weigh weight = tally.weigh weight + weight step.turn := by
  simp only [weigh, straights_record h]
  simp only [record, Step.isDiagonal_eq, Step.isRotation_eq, add_smul]
  cases step.turn <;> simp <;> abel

theorem weigh_foldl_record (arrivals : List Arrival) (h : tally.nonStraight ≤ tally.steps)
    (weight : Turn → M) :
    (arrivals.foldl (fun tally arrival ↦ tally.record arrival.step arrival.position)
      tally).weigh weight = tally.weigh weight + (arrivals.map (weight ·.step.turn)).sum := by
  induction arrivals generalizing tally with
  | nil => simp
  | cons arrival arrivals ih =>
    have hle := nonStraight_record_le h arrival.step arrival.position
    rw [List.foldl_cons, ih hle, weigh_record h, List.map_cons, List.sum_cons, add_assoc]

end Tally

/-! ## Traces of circuits -/

namespace Mask

variable {mask : Mask} {connectivity : Connectivity} {s : Position}

theorem arrivals_eq (mask : Mask) (connectivity : Connectivity) (count : ℕ) (s : Position) :
    mask.arrivals connectivity count s = (List.range count).map fun n ↦
      ⟨mask.chooseStep connectivity (mask.walk connectivity s n),
        mask.walk connectivity s (n + 1)⟩ := by
  induction count generalizing s with
  | zero => rfl
  | succ count ih =>
    rw [arrivals, ih, List.range_succ_eq_map, List.map_cons, List.map_map]
    rfl

/-- The point that a trace keeps after so many steps and one more. -/
def pointAt (mask : Mask) (connectivity : Connectivity) (line : ContourLine) (s : Position)
    (n : ℕ) : Point :=
  line.point (mask.walk connectivity s (n + 1))
    (mask.chooseStep connectivity (mask.walk connectivity s n))

theorem pointAt_period (mask : Mask) (connectivity : Connectivity) (line : ContourLine)
    (s : Position) : mask.pointAt connectivity line s (mask.period connectivity s) =
      mask.pointAt connectivity line s 0 := by
  rw [pointAt, pointAt, walk_period, walk_period_add]
  rfl

end Mask

namespace Tracer

variable {tracer found : Tracer} {value : Value} {line : ContourLine} {e s : Position}
  {last : Option Step} {points : Array Point} {interval : ℕ}

theorem contourPoint_arrive (hplace : tracer.placement = some ⟨e, s, last⟩)
    (hline : ContourLine.ofValue value = .ok line) (arrival : Arrival) :
    (tracer.arrive arrival).contourPoint value =
      .ok (line.point arrival.position arrival.step) := by
  rw [contourPoint, placement_arrive hplace, hline]
  rfl

theorem traceFrom_of_isFinished (hplace : tracer.placement = some ⟨e, s, last⟩)
    (hfinished : (Placement.mk e s last).isFinished = true) (value : Value) (interval fuel : ℕ)
    (points : Array Point) :
    Stack.traceFrom value .silent interval fuel points (.bare tracer) =
      ⟨.ok points.toList, points.size, .bare tracer⟩ := by
  have h : (Stack.bare tracer).isFinished = true := by
    simp [Stack.isFinished, Stack.bare, isFinished, hplace, hfinished]
  cases fuel <;> simp [Stack.traceFrom, h]

theorem traceFrom_succ (interval fuel : ℕ) (points : Array Point)
    (hline : ContourLine.ofValue value = .ok line)
    (hplace : tracer.placement = some ⟨e, s, last⟩)
    (hunfinished : (Placement.mk e s last).isFinished = false) :
    Stack.traceFrom value .silent interval (fuel + 1) points (.bare tracer) =
      Stack.traceFrom value .silent interval fuel
        (points.push (line.point (tracer.arrivalFrom s).position (tracer.arrivalFrom s).step))
        (.bare (tracer.arrive (tracer.arrivalFrom s))) := by
  have h : (Stack.bare tracer).isFinished = false := by
    simp [Stack.isFinished, Stack.bare, isFinished, hplace, hunfinished]
  have hnext : (Stack.bare tracer).next =
      .ok (.bare (tracer.arrive (tracer.arrivalFrom s))) := by
    simp [Stack.next, Stack.bare, next_eq_arrive hplace hunfinished]
  have hpoint := contourPoint_arrive hplace hline (tracer.arrivalFrom s)
  have hcheck (steps : ℕ) : Stack.checkAfter .silent interval steps = none := by
    simp [Stack.checkAfter, Context.silent]
  rw [Stack.traceFrom, h, hnext]
  simp only [Stack.bare, hpoint, hcheck, Bool.false_eq_true, if_false]

/-- A trace makes the steps of a scan and keeps one point of each. -/
theorem traceFrom_eq {count fuel : ℕ} (interval : ℕ) (points : Array Point)
    (hline : ContourLine.ofValue value = .ok line)
    (hplace : tracer.placement = some ⟨e, s, last⟩)
    (hunfinished : (Placement.mk e s last).isFinished = false)
    (hback : (tracer.mask.successor tracer.connectivity)^[count + 1] s = e)
    (hnot : ∀ n < count, (tracer.mask.successor tracer.connectivity)^[n + 1] s ≠ e)
    (hfuel : count < fuel) :
    let arrivals := tracer.mask.arrivals tracer.connectivity (count + 1) s
    Stack.traceFrom value .silent interval fuel points (.bare tracer) =
      ⟨.ok (points.toList ++ arrivals.map fun arrival ↦ line.point arrival.position arrival.step),
        points.size + (count + 1), .bare (arrivals.foldl arrive tracer)⟩ := by
  induction count generalizing tracer s last fuel points with
  | zero =>
    obtain ⟨fuel, rfl⟩ : ∃ rest, fuel = rest + 1 := ⟨fuel - 1, by omega⟩
    have hplace' := placement_arrive hplace (tracer.arrivalFrom s)
    have hfinished : (Placement.mk e (tracer.arrivalFrom s).position
        (some (tracer.arrivalFrom s).step)).isFinished = true := by
      simpa [Placement.isFinished, arrivalFrom] using hback
    rw [traceFrom_succ interval fuel points hline hplace hunfinished,
      traceFrom_of_isFinished hplace' hfinished, Array.toList_push, Array.size_push]
    rfl
  | succ count ih =>
    obtain ⟨fuel, rfl⟩ : ∃ rest, fuel = rest + 1 := ⟨fuel - 1, by omega⟩
    have hplace' := placement_arrive hplace (tracer.arrivalFrom s)
    have hunfinished' : (Placement.mk e (tracer.arrivalFrom s).position
        (some (tracer.arrivalFrom s).step)).isFinished = false := by
      simpa [Placement.isFinished, arrivalFrom] using hnot 0 (by omega)
    have hrun := ih
      (points.push (line.point (tracer.arrivalFrom s).position (tracer.arrivalFrom s).step))
      hplace' hunfinished' hback (fun n hn ↦ hnot (n + 1) (by omega)) (show count < fuel by omega)
    rw [traceFrom_succ interval fuel points hline hplace hunfinished, hrun, Array.toList_push,
      Array.size_push, List.append_assoc, Nat.add_right_comm points.size 1]
    rfl

/-- A trace from a boundary side goes once around its circuit, as a scan does. -/
theorem trace_eq (h : tracer.mask.IsBoundary e)
    (hplace : tracer.placement = some (Placement.initial e))
    (hline : ContourLine.ofValue value = .ok line) (interval : ℕ) :
    (Stack.bare tracer).trace value .silent interval =
      ⟨.ok ((tracer.mask.arrivals tracer.connectivity
          (tracer.mask.period tracer.connectivity e) e).map fun arrival ↦
            line.point arrival.position arrival.step),
        tracer.mask.period tracer.connectivity e, .bare (tracer.scanned e)⟩ := by
  obtain ⟨count, hcount, hback, hnot, hfuel⟩ := exists_count h interval
  have hrun := traceFrom_eq interval #[] hline hplace rfl hback hnot hfuel
  rw [Stack.trace, hrun, scanned, hcount, Array.toList_empty, List.nil_append, Array.size_empty,
    Nat.zero_add]

/-- A trace of a whole boundary keeps one point for every side of its circuit. -/
theorem trace_eq_pointAt (hs : found.mask.IsBoundary s)
    (hplace : found.placement = some (.initial s)) (line : ContourLine) (interval : ℕ) :
    let points := (List.range (found.mask.period found.connectivity s)).map
      (found.mask.pointAt found.connectivity line s)
    (Stack.bare found).trace (.member (.line line)) .silent interval =
      ⟨.ok points, points.length, .bare (found.scanned s)⟩ := by
  intro points
  have hline : ContourLine.ofValue (.member (.line line)) = .ok line := rfl
  rw [trace_eq hs hplace hline, Mask.arrivals_eq, List.map_map, List.length_map, List.length_range]
  rfl

/-- The sum of a number for every step of a circuit, by the kind of the step. -/
theorem weigh_scanned {M : Type*} [AddCommMonoid M] (htally : found.tally = {}) (s : Position)
    (weight : Turn → M) : (found.scanned s).tally.weigh weight =
      ∑ n ∈ range (found.mask.period found.connectivity s), weight
        (found.mask.chooseTurn found.connectivity
          (found.mask.walk found.connectivity s n)) := by
  have hzero : (({} : Tally)).weigh weight = 0 := by simp [Tally.weigh, Tally.straights]
  rw [scanned, tally_foldl_arrive, htally, Tally.weigh_foldl_record _ le_rfl, hzero, zero_add,
    Mask.arrivals_eq, List.map_map]
  apply congrArg List.sum
  apply List.map_congr_left
  intro n _
  exact congrArg weight (Side.turn_step ..)

end Tracer

end ContourTracing
