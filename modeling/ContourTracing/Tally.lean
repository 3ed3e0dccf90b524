import ContourTracing.ContourLine

/-!
# Tallies of a walk

While a boundary is followed, the steps are counted by kind and the enclosed area is summed up:
every right side adds the column to its left, every left side subtracts the column before it.
Areas and lengths of all contour styles are functions of these counts.
-/

namespace ContourTracing

structure Tally where
  steps : Nat := 0
  diagonals : Nat := 0
  rotations : Nat := 0
  area : Int := 0
deriving DecidableEq, Repr, Inhabited

namespace Tally

def nonStraight (tally : Tally) : Nat :=
  tally.diagonals + tally.rotations

def straights (tally : Tally) : Nat :=
  tally.steps - tally.nonStraight

/-- What arriving at a position adds to the enclosed area. -/
def areaAt (position : Position) : Int :=
  match position.side with
  | .right => position.x
  | .left => 1 - position.x
  | .top | .bottom => 0

/-- The tally after a step that ended at the given position. -/
def record (tally : Tally) (step : Step) (position : Position) : Tally where
  steps := tally.steps + 1
  diagonals := tally.diagonals + if step.isDiagonal then 1 else 0
  rotations := tally.rotations + if step.isRotation then 1 else 0
  area := tally.area + areaAt position

/-- The signed area within the contour of the given style. -/
def areaOn (tally : Tally) : ContourLine → Rat
  | .corners => tally.area
  | .centers => tally.area - tally.straights / (2 : Rat) - tally.nonStraight / (4 : Rat)
  | .segments => if 0 < tally.area then tally.area - 1 / 2 else tally.area + 1 / 2

def lengthOn (tally : Tally) : ContourLine → Length
  | .corners => ⟨tally.steps, 0⟩
  | .centers => ⟨tally.straights, 2 * tally.diagonals⟩
  | .segments => ⟨tally.straights, tally.nonStraight⟩

end Tally

end ContourTracing
