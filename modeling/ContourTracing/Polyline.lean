import ContourTracing.ContourLine

/-!
# Closed polylines

The length and the signed area of the closed polyline through a list of points. Both are sums
over the sides from each point to the next and from the last one to the first. The coordinates
may be numbers of any kind: exact for contours, floating point for given points.
-/

namespace ContourTracing.Polyline

variable {α β : Type}

/-- The sides of the closed polyline. -/
def sides (points : List α) : List (α × α) :=
  points.zip (points.rotateLeft 1)

/-- The sum of the side lengths; a single point has length zero. -/
def length [Sub α] [OfNat β 0] (distance : α → α → β) (total : List β → β)
    (points : List (α × α)) : β :=
  if points.length < 2 then 0
  else total ((sides points).map fun (p, q) ↦ distance (q.1 - p.1) (q.2 - p.2))

/-- The shoelace formula; with the vertical axis pointing down, clockwise polylines are positive. -/
def area [Add α] [Sub α] [Mul α] [OfNat α 0] (half : α) (points : List (α × α)) : α :=
  if points.length < 3 then 0
  else
    half * (((sides points).map fun (p, q) ↦ p.1 * q.2).foldl (· + ·) 0 -
      ((sides points).map fun (p, q) ↦ q.1 * p.2).foldl (· + ·) 0)

/-- The signed area of a polyline with exact coordinates. -/
def exactArea (points : List Point) : Rat :=
  area (1 / 2) points

end ContourTracing.Polyline
