/-!
# Sides of a unit pixel

Pixel `(x, y)` is the unit square around the point `(x, y)`, the vertical axis pointing down.
A boundary is followed with its object on the right hand: up a left side, rightward along a top
side, down a right side and leftward along a bottom side.
-/

namespace ContourTracing

inductive Side where
  | left
  | top
  | right
  | bottom
deriving DecidableEq, Repr, Inhabited

namespace Side

def all : List Side := [left, top, right, bottom]

def code : Side → Nat
  | left => 0
  | top => 1
  | right => 2
  | bottom => 3

/-- Sides are written by the axis that they cross and the end of the pixel at which they lie. -/
def label : Side → String
  | left => "X_MINUS"
  | top => "Y_MINUS"
  | right => "X_PLUS"
  | bottom => "Y_PLUS"

def ofLabel? (text : String) : Option Side :=
  all.find? fun side ↦ side.label == text

def isVertical : Side → Bool
  | left | right => true
  | top | bottom => false

def isHorizontal (side : Side) : Bool :=
  !side.isVertical

/-- The unit vector from the pixel through the side. -/
def outward : Side → Int × Int
  | left => (-1, 0)
  | top => (0, -1)
  | right => (1, 0)
  | bottom => (0, 1)

/-- The next side in the order left, top, right, bottom. -/
def clockwise : Side → Side
  | left => top
  | top => right
  | right => bottom
  | bottom => left

def counterclockwise : Side → Side
  | left => bottom
  | top => left
  | right => top
  | bottom => right

def opposite : Side → Side
  | left => right
  | top => bottom
  | right => left
  | bottom => top

/-- The unit vector in which a boundary is followed on the side. -/
def along (side : Side) : Int × Int :=
  side.clockwise.outward

@[simp]
theorem opposite_opposite (side : Side) : side.opposite.opposite = side := by
  cases side <;> rfl

theorem along_opposite (side : Side) :
    side.opposite.along = (-side.along.1, -side.along.2) := by
  cases side <;> rfl

end Side

end ContourTracing
