/-!
# Lengths of lattice contours

Every contour drawn through pixel centres, pixel corners or middles of pixel sides has a length
of the form `a + b * (√2 / 2)` with natural `a` and `b`. The two counts are kept apart, so that
lengths are exact; only a reader who wants one number rounds.
-/

namespace ContourTracing

/-- `whole` units and `halfDiagonals` times half the diagonal of a unit pixel. -/
structure Length where
  whole : Nat
  halfDiagonals : Nat
deriving DecidableEq, Repr, Inhabited

namespace Length

def halfDiagonal : Float :=
  0.5 * Float.sqrt 2.0

def toFloat (length : Length) : Float :=
  length.whole.toFloat + halfDiagonal * length.halfDiagonals.toFloat

end Length

end ContourTracing
