import ContourTracing.Length
import ContourTracing.Side

/-!
# Elementary steps along a boundary

A step moves the tracer by `(dx, dy)` pixels and turns it from one side to another. The steps
that a boundary walk is made of are straight (the next pixel, same side), diagonal (around an
inner corner into the diagonal pixel, the side turning counterclockwise) and rotations (around
an outer corner of the same pixel, the side turning clockwise). A step also fixes the pixel
corner between the old and the new boundary segment; a movement for which no such corner exists
is not a step.

Offsets of corners and segment middles are multiples of one half and are kept doubled.
-/

namespace ContourTracing

inductive Turn where
  | straight
  | diagonal
  | rotation
deriving DecidableEq, Repr, Inhabited

namespace Turn

def all : List Turn := [straight, diagonal, rotation]

def code : Turn → Nat
  | straight => 0
  | diagonal => 1
  | rotation => 2

end Turn

structure Step where
  code : Int
  dx : Int
  dy : Int
  oldSide : Side
  newSide : Side
deriving DecidableEq, Repr, Inhabited

namespace Step

def isRotation (step : Step) : Bool :=
  step.dx == 0 && step.dy == 0

def isHorizontal (step : Step) : Bool :=
  step.dx != 0 && step.dy == 0

def isVertical (step : Step) : Bool :=
  step.dx == 0 && step.dy != 0

def isStraight (step : Step) : Bool :=
  step.isHorizontal || step.isVertical

def isDiagonal (step : Step) : Bool :=
  step.dx != 0 && step.dy != 0

/-- Twice the offset, from the new pixel, of the corner between the old and the new segment. -/
def doubledVertex (step : Step) : Int × Int :=
  let old := step.oldSide.outward
  let new := step.newSide.outward
  if step.isStraight then
    (if step.dx = 0 then new.1 else -step.dx, if step.dy = 0 then new.2 else -step.dy)
  else if step.isRotation then
    (if step.newSide.isVertical then new.1 else old.1,
      if step.newSide.isHorizontal then new.2 else old.2)
  else
    (if step.newSide.isVertical then new.1 else -old.1,
      if step.newSide.isHorizontal then new.2 else -old.2)

/-- Twice the movement of the middle of the current side. -/
def doubledSegment (step : Step) : Int × Int :=
  if step.isStraight then (2 * step.dx, 2 * step.dy)
  else if step.isRotation then
    (step.newSide.outward.1 - step.oldSide.outward.1,
      step.newSide.outward.2 - step.oldSide.outward.2)
  else (step.dx, step.dy)

/-- The two offsets of the vertex add up to one pixel. -/
def HasVertex (step : Step) : Prop :=
  step.doubledVertex.1.natAbs + step.doubledVertex.2.natAbs = 2

instance (step : Step) : Decidable step.HasVertex :=
  inferInstanceAs (Decidable (_ = _))

/-- A movement is a step only if it has a vertex. -/
def make? (code dx dy : Int) (oldSide newSide : Side) : Option Step :=
  let step : Step := ⟨code, dx, dy, oldSide, newSide⟩
  if step.HasVertex then some step else none

/-- A half-integer offset, given doubled, moved up by one half; a tie goes to the even neighbour. -/
def increased (doubled : Int) : Int :=
  if (doubled + 1) % 2 = 0 then (doubled + 1) / 2
  else if (doubled / 2) % 2 = 0 then doubled / 2
  else doubled / 2 + 1

def increasedVertex (step : Step) : Int × Int :=
  (increased step.doubledVertex.1, increased step.doubledVertex.2)

def distanceBetweenCenters (step : Step) : Length :=
  if step.isRotation then ⟨0, 0⟩ else if step.isStraight then ⟨1, 0⟩ else ⟨0, 2⟩

def distanceBetweenSegments (step : Step) : Length :=
  if step.isStraight then ⟨1, 0⟩ else ⟨0, 1⟩

end Step

/-! ## The steps of a boundary walk -/

namespace Side

/-- The step that makes the given turn on the side. -/
def step (side : Side) (turn : Turn) : Step :=
  let code : Int := 4 * turn.code + side.code
  let (ax, ay) := side.along
  let (ox, oy) := side.outward
  match turn with
  | .straight => ⟨code, ax, ay, side, side⟩
  | .diagonal => ⟨code, ax + ox, ay + oy, side, side.counterclockwise⟩
  | .rotation => ⟨code, 0, 0, side, side.clockwise⟩

theorem step_hasVertex (side : Side) (turn : Turn) : (side.step turn).HasVertex := by
  cases side <;> cases turn <;> decide

end Side

namespace Step

/-- The steps of boundary walks in the order of their codes. -/
def all : List Step :=
  Turn.all.flatMap fun turn ↦ Side.all.map fun side ↦ side.step turn

/-- The step between two sides; there is none to the opposite side. -/
def between? (oldSide newSide : Side) : Option Step :=
  all.find? fun step ↦ step.oldSide == oldSide && step.newSide == newSide

end Step

end ContourTracing
