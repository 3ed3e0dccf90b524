import ContourTracing.Transition
import Mathlib.Data.Int.Notation

/-!
# Vertices of steps

A step can be made from a movement and two sides if the offsets of its vertex add up to one pixel.
All corners of a pixel are accepted by this, and besides them the centre of the pixel that is passed
over when the movement leads straight on by two pixels and ends at a side across its way. There are
no other cases, and the steps of boundary walks are not among these.
-/

namespace ContourTracing

namespace Side

theorem natAbs_outward_fst (side : Side) :
    side.outward.1.natAbs = if side.isVertical then 1 else 0 := by
  cases side <;> rfl

theorem natAbs_outward_snd (side : Side) :
    side.outward.2.natAbs = if side.isVertical then 0 else 1 := by
  cases side <;> rfl

end Side

namespace Step

/-- Both offsets of the vertex are half a pixel, in one direction or the other. -/
def HasCorner (step : Step) : Prop :=
  step.doubledVertex.1.natAbs = 1 ∧ step.doubledVertex.2.natAbs = 1

instance (step : Step) : Decidable step.HasCorner :=
  inferInstanceAs (Decidable (_ ∧ _))

/-- The movement leads straight on by two pixels, and the new side lies across its way. -/
def SkipsPixel (step : Step) : Prop :=
  (step.dx.natAbs = 2 ∧ step.dy = 0 ∧ step.newSide.isVertical = true) ∨
    (step.dx = 0 ∧ step.dy.natAbs = 2 ∧ step.newSide.isVertical = false)

instance (step : Step) : Decidable step.SkipsPixel :=
  inferInstanceAs (Decidable (_ ∨ _))

variable {step : Step}

/-! ## Vertices by kinds of movements -/

theorem doubledVertex_of_isHorizontal (hx : step.dx ≠ 0) (hy : step.dy = 0) :
    step.doubledVertex = (-step.dx, step.newSide.outward.2) := by
  simp [doubledVertex, isStraight, isHorizontal, hx, hy]

theorem doubledVertex_of_isVertical (hx : step.dx = 0) (hy : step.dy ≠ 0) :
    step.doubledVertex = (step.newSide.outward.1, -step.dy) := by
  simp [doubledVertex, isStraight, isVertical, isHorizontal, hx, hy]

/-- A rotation or a diagonal movement takes each offset from one of its sides. -/
theorem natAbs_doubledVertex_of_not_isStraight (h : step.isStraight = false) :
    step.doubledVertex.1.natAbs =
        (if step.newSide.isVertical ∨ step.oldSide.isVertical then 1 else 0) ∧
      step.doubledVertex.2.natAbs =
        (if step.newSide.isVertical ∧ step.oldSide.isVertical then 0 else 1) := by
  cases hnew : step.newSide.isVertical <;> cases hrotation : step.isRotation <;>
    simp [doubledVertex, h, hnew, hrotation, Side.isHorizontal, Side.natAbs_outward_fst,
      Side.natAbs_outward_snd]

/-! ## What the sum of the offsets accepts -/

theorem hasVertex_iff_of_isHorizontal (hx : step.dx ≠ 0) (hy : step.dy = 0) :
    step.HasVertex ↔ step.HasCorner ∨ step.SkipsPixel := by
  simp only [HasVertex, HasCorner, SkipsPixel, doubledVertex_of_isHorizontal hx hy,
    Side.natAbs_outward_snd, Int.natAbs_neg]
  cases step.newSide.isVertical with
  | false => simp [hx]
  | true => simp [hy]

theorem hasVertex_iff_of_isVertical (hx : step.dx = 0) (hy : step.dy ≠ 0) :
    step.HasVertex ↔ step.HasCorner ∨ step.SkipsPixel := by
  simp only [HasVertex, HasCorner, SkipsPixel, doubledVertex_of_isVertical hx hy,
    Side.natAbs_outward_fst, Int.natAbs_neg]
  have hsum : 1 + step.dy.natAbs = 2 ↔ step.dy.natAbs = 1 := by omega
  cases step.newSide.isVertical with
  | false => simp [hx]
  | true => simp [hx, hsum]

/-- Without a straight movement an offset is half a pixel or none, and both cannot be one pixel. -/
theorem hasVertex_iff_of_not_isStraight (h : step.isStraight = false) :
    step.HasVertex ↔ step.HasCorner := by
  obtain ⟨hfst, hsnd⟩ := natAbs_doubledVertex_of_not_isStraight h
  rw [HasVertex, HasCorner, hfst, hsnd]
  cases step.newSide.isVertical <;> cases step.oldSide.isVertical <;> decide

theorem not_skipsPixel_of_not_isStraight (h : step.isStraight = false) : ¬ step.SkipsPixel := by
  simp only [isStraight, isHorizontal, isVertical, Bool.or_eq_false_iff, Bool.and_eq_false_iff,
    bne_eq_false_iff_eq, beq_eq_false_iff_ne] at h
  rintro (⟨hx, hy, -⟩ | ⟨hx, hy, -⟩) <;> omega

/-- The offsets add up to one pixel at the corners and at the centre of a pixel passed over. -/
theorem hasVertex_iff (step : Step) : step.HasVertex ↔ step.HasCorner ∨ step.SkipsPixel := by
  cases hstraight : step.isStraight with
  | false =>
    rw [hasVertex_iff_of_not_isStraight hstraight,
      or_iff_left (not_skipsPixel_of_not_isStraight hstraight)]
  | true =>
    simp only [isStraight, isHorizontal, isVertical, Bool.or_eq_true, Bool.and_eq_true, bne_iff_ne,
      beq_iff_eq] at hstraight
    obtain ⟨hx, hy⟩ | ⟨hx, hy⟩ := hstraight
    · exact hasVertex_iff_of_isHorizontal hx hy
    · exact hasVertex_iff_of_isVertical hx hy

theorem doubledVertex_of_skipsPixel (h : step.SkipsPixel) :
    step.doubledVertex = (-step.dx, -step.dy) := by
  obtain ⟨hx, hy, hside⟩ | ⟨hx, hy, hside⟩ := h
  · have hsnd : step.newSide.outward.2.natAbs = 0 := by
      rw [Side.natAbs_outward_snd, hside, if_pos rfl]
    rw [doubledVertex_of_isHorizontal (by omega) hy, hy, Int.natAbs_eq_zero.1 hsnd, Int.neg_zero]
  · have hfst : step.newSide.outward.1.natAbs = 0 := by
      rw [Side.natAbs_outward_fst, hside, if_neg Bool.false_ne_true]
    rw [doubledVertex_of_isVertical hx (by omega), hx, Int.natAbs_eq_zero.1 hfst, Int.neg_zero]

theorem not_hasCorner_of_skipsPixel (h : step.SkipsPixel) : ¬ step.HasCorner := by
  rw [HasCorner, doubledVertex_of_skipsPixel h, Int.natAbs_neg, Int.natAbs_neg]
  rintro ⟨hx, hy⟩
  obtain ⟨hx', -, -⟩ | ⟨-, hy', -⟩ := h <;> omega

/-! ## Corners as lattice points -/

/-- The offsets of a corner, moved up by half a pixel, number the corners of the pixel. -/
theorem increased_of_natAbs_eq_one {doubled : ℤ} (h : doubled.natAbs = 1) :
    increased doubled = 0 ∨ increased doubled = 1 := by
  obtain rfl | rfl := Int.natAbs_eq_iff.1 h
  · exact .inr rfl
  · exact .inl rfl

theorem increasedVertex_of_hasCorner (h : step.HasCorner) :
    (step.increasedVertex.1 = 0 ∨ step.increasedVertex.1 = 1) ∧
      (step.increasedVertex.2 = 0 ∨ step.increasedVertex.2 = 1) :=
  ⟨increased_of_natAbs_eq_one h.1, increased_of_natAbs_eq_one h.2⟩

/-- No step of a boundary walk passes over a pixel. -/
theorem hasCorner_step (side : Side) (turn : Turn) : (side.step turn).HasCorner := by
  have hskips : ¬ (side.step turn).SkipsPixel := by
    cases side <;> cases turn <;> decide
  exact ((hasVertex_iff _).1 (side.step_hasVertex turn)).resolve_right hskips

/-! ## Making steps -/

/-- Within the floating-point range a step is made if its vertex is a corner of the pixel, or if it
passes over a pixel, at the centre of which its vertex is then; all other movements are refused. -/
theorem make_cases (code dx dy : ℤ) (oldSide newSide : Side) :
    let step : Step := ⟨code, dx, dy, oldSide, newSide⟩
    let inRange := Decimal.isInRange dx = true ∧ Decimal.isInRange dy = true
    let made := make code dx dy oldSide newSide
    (inRange ∧ step.HasCorner ∧ made = .ok step ∧
        (step.increasedVertex.1 = 0 ∨ step.increasedVertex.1 = 1) ∧
          (step.increasedVertex.2 = 0 ∨ step.increasedVertex.2 = 1)) ∨
      (inRange ∧ step.SkipsPixel ∧ made = .ok step ∧
        step.doubledVertex = (-dx, -dy) ∧ ¬ step.HasCorner) ∨
      (inRange ∧ ¬ step.HasCorner ∧ ¬ step.SkipsPixel ∧ made = .error (.misuse .noVertex)) ∨
      (¬ inRange ∧ made = .error (.misuse .tooLarge)) := by
  intro step inRange made
  by_cases hrange : inRange
  · by_cases hvertex : step.HasVertex
    · have hmade : made = .ok step := by
        simp only [made, make]
        rw [if_pos hrange, make?, if_pos hvertex]
      obtain hcorner | hskips := step.hasVertex_iff.1 hvertex
      · exact .inl ⟨hrange, hcorner, hmade, increasedVertex_of_hasCorner hcorner⟩
      · exact .inr (.inl ⟨hrange, hskips, hmade, doubledVertex_of_skipsPixel hskips,
          not_hasCorner_of_skipsPixel hskips⟩)
    · have hmade : made = .error (.misuse .noVertex) := by
        simp only [made, make]
        rw [if_pos hrange, make?, if_neg hvertex]
      rw [hasVertex_iff, not_or] at hvertex
      exact .inr (.inr (.inl ⟨hrange, hvertex.1, hvertex.2, hmade⟩))
  · exact .inr (.inr (.inr ⟨hrange, if_neg hrange⟩))

/-- Two pixels up from a left side to a top side: the vertex is the centre of the pixel between. -/
theorem exists_make_not_hasCorner : ∃ step, make 99 0 (-2) .left .top = .ok step ∧
    ¬ step.HasCorner ∧ step.doubledVertex = (0, 2) ∧ step.increasedVertex = (0, 2) := by
  have hvertex : HasVertex ⟨99, 0, -2, .left, .top⟩ := by decide
  have hmade : make 99 0 (-2) .left .top = .ok ⟨99, 0, -2, .left, .top⟩ := by
    rw [make, if_pos (by decide), make?, if_pos hvertex]
  exact ⟨_, hmade, by decide, by decide, by decide⟩

end Step

end ContourTracing
