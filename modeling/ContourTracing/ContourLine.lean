import ContourTracing.Position

/-!
# Styles of contour lines

Every step of a boundary walk gives one point of a closed contour: the corner between the last
two boundary segments, the centre of the current pixel, or the middle of the current side.
Points have half-integer coordinates and are kept as rational numbers.
-/

namespace ContourTracing

abbrev Point := Rat × Rat

inductive ContourLine where
  | corners
  | centers
  | segments
deriving DecidableEq, Repr, Inhabited

namespace ContourLine

def all : List ContourLine := [corners, centers, segments]

def code : ContourLine → Nat
  | corners => 0
  | centers => 1
  | segments => 2

def label : ContourLine → String
  | corners => "STRICT_BOUNDARY"
  | centers => "PIXEL_CENTERS_POLYLINE"
  | segments => "SEGMENT_CENTERS_POLYLINE"

/-- The word that stands for the style in settings. -/
def word : ContourLine → String
  | corners => "strict_boundary"
  | centers => "pixel_centers_polyline"
  | segments => "segment_centers_polyline"

/-- The contour point of a position that was reached by the given step. -/
def point (line : ContourLine) (position : Position) (step : Step) : Point :=
  match line with
  | corners =>
    (position.x + step.doubledVertex.1 / (2 : Rat), position.y + step.doubledVertex.2 / (2 : Rat))
  | centers => (position.x, position.y)
  | segments =>
    (position.x + position.side.outward.1 / (2 : Rat),
      position.y + position.side.outward.2 / (2 : Rat))

end ContourLine

end ContourTracing
