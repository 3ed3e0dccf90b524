import ContourTracing.Fault

/-!
# Shapes of arrays

The shape of an array lists its dimensions, the slowest one first. There are arrays of up to 64
dimensions, as long as the extent in bytes of what is not empty about them is a signed 64-bit
number. The elements of an array are numbered in raster order, and backwards from the end by
negative numbers.
-/

namespace ContourTracing.Shape

def maxDimensions : Nat := 64

/-- The number of elements. -/
def size (shape : List Nat) : Nat :=
  shape.foldr (· * ·) 1

/-- The extent in bytes, dimensions of no extent left out. -/
def extent (elementBytes : Nat) (shape : List Nat) : Nat :=
  elementBytes * size (shape.filter (· ≠ 0))

/-- The shape with the given dimensions. -/
def make (elementBytes : Nat) (dimensions : List Int) : Except Fault (List Nat) :=
  let shape := dimensions.map Int.toNat
  if dimensions.all (0 ≤ ·) ∧ shape.length ≤ maxDimensions ∧
      extent elementBytes shape < Nat.pow 2 63 then .ok shape
  else .error (.misuse .unsupportedShape)

/-- The raster number of an element of an array of the given size. -/
def raster (size : Nat) (number : Int) : Except Fault Nat :=
  let index := if number < 0 then number + size else number
  if 0 ≤ index ∧ index < size then .ok index.toNat else .error (.misuse .noElement)

/-- A shape in parentheses; a single dimension is followed by a comma. -/
def text : List Nat → String
  | [size] => "(" ++ toString size ++ ",)"
  | sizes => "(" ++ ", ".intercalate (sizes.map toString) ++ ")"

end ContourTracing.Shape
