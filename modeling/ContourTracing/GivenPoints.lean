import ContourTracing.Decimal.Norm
import ContourTracing.Matrix.Nested
import ContourTracing.Number
import ContourTracing.Polyline

/-!
# Polylines through given points

Points may be given as nested lists of numbers, whose elements in raster order are the
coordinates. Lengths and areas of such polylines are floating-point sums.
-/

namespace ContourTracing

abbrev FloatPoint := Float × Float

namespace FloatPoint

/-- Consecutive coordinates in pairs; their number has to be even. -/
def ofCoordinates : List Float → Except Fault (List FloatPoint)
  | [] => .ok []
  | [_] => .error (.misuse .oddCoordinateCount)
  | x :: y :: rest => do return (x, y) :: (← ofCoordinates rest)

def ofValue (value : Value) : Except Fault (List FloatPoint) := do
  let _ ← value.shape
  ofCoordinates (← value.leaves.mapM Value.toFloat)

def ofPoint (point : Point) : FloatPoint :=
  (Decimal.ofRat point.1, Decimal.ofRat point.2)

/-- The coordinates in single precision, one point after the other. -/
def singlePrecision (points : List FloatPoint) : List Float :=
  points.flatMap fun (x, y) ↦ [x.toFloat32.toFloat, y.toFloat32.toFloat]

end FloatPoint

namespace Polyline

def floatLength (points : List FloatPoint) : Float :=
  length Decimal.norm Decimal.pairwiseSum points

def floatArea (points : List FloatPoint) : Float :=
  area 0.5 points

end Polyline

end ContourTracing
