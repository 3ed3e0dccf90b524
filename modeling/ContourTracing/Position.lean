import ContourTracing.Step

/-!
# Positions of a tracer

A tracer stands on one side of one pixel. A step moves it and turns it to the step's new side.
-/

namespace ContourTracing

structure Position where
  x : Int
  y : Int
  side : Side
deriving DecidableEq, Repr, Inhabited

namespace Position

/-- The pixel next to the current one in the direction in which the boundary is followed. -/
def ahead (position : Position) : Int × Int :=
  (position.x + position.side.along.1, position.y + position.side.along.2)

/-- The pixel across the current side. -/
def across (position : Position) : Int × Int :=
  (position.x + position.side.outward.1, position.y + position.side.outward.2)

/-- The pixel across the current side of the pixel ahead. -/
def aheadAcross (position : Position) : Int × Int :=
  (position.ahead.1 + position.side.outward.1, position.ahead.2 + position.side.outward.2)

def move (position : Position) (step : Step) : Position :=
  ⟨position.x + step.dx, position.y + step.dy, step.newSide⟩

theorem move_straight (position : Position) :
    position.move (position.side.step .straight) =
      ⟨position.ahead.1, position.ahead.2, position.side⟩ := rfl

theorem move_diagonal (position : Position) :
    position.move (position.side.step .diagonal) =
      ⟨position.aheadAcross.1, position.aheadAcross.2, position.side.counterclockwise⟩ := by
  simp [move, aheadAcross, ahead, Side.step, Int.add_assoc]

theorem move_rotation (position : Position) :
    position.move (position.side.step .rotation) =
      ⟨position.x, position.y, position.side.clockwise⟩ := by
  simp [move, Side.step]

end Position

end ContourTracing
