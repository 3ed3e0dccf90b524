import ContourTracing.Matrix.Nested

/-!
# Forms of matrices

A matrix may be given by a value that is handed over as it is, by rows of characters, or as a
painting: an array of zeros on which rectangles are painted and single elements set.
-/

namespace ContourTracing

structure Rectangle where
  x : Nat
  y : Nat
  width : Nat
  height : Nat
  value : Bool
deriving DecidableEq, Repr

namespace BitArray

/-- Rows of characters of one length; `1` stands for a set pixel. -/
def ofRows (lines : List String) : Except Fault BitArray :=
  ofNested (.list (lines.map fun line ↦ .list (line.toList.map fun c ↦ .bool (c == '1'))))

/-- An array of zeros, painted with rectangles in order; then elements are set by their raster
numbers. -/
def painted (dimensions : List Int) (rectangles : List Rectangle) (elements : List Int) :
    Except Fault BitArray := do
  let array := rectangles.foldl
    (fun array r ↦ array.paint r.x r.y r.width r.value r.height)
    (zeros (← Shape.make 1 dimensions))
  elements.foldlM
    (fun array number ↦ return array.setAt (← Shape.raster array.bits.size number) true) array

end BitArray

inductive MatrixForm where
  | nested (value : Value)
  | rows (lines : List String)
  | painted (dimensions : List Int) (rectangles : List Rectangle) (elements : List Int)

namespace MatrixForm

/-- What is handed over as a matrix; rows and paintings are made arrays first. -/
def source : MatrixForm → Except Fault MatrixSource
  | nested value => .ok (.nested value)
  | rows lines => return .dense (← BitArray.ofRows lines)
  | painted dimensions rectangles elements =>
    return .dense (← BitArray.painted dimensions rectangles elements)

end MatrixForm

end ContourTracing
