import ContourTracing.Matrix.Basic
import ContourTracing.Shape

/-!
# Arrays from nested lists

Lists nested to one depth, with lists of equal length at each level, are an array. A number
stands for an array without dimensions. The elements of an array are of one kind: beside text,
truth values and 64-bit numbers become text as well.
-/

namespace ContourTracing

namespace Value

mutual

/-- The shape of nested lists, if they have one. -/
def shape? : Value → Option (List Nat)
  | list [] => some [0]
  | list (item :: items) => do
    let inner ← item.shape?
    let length ← lengthOfShape? inner items
    return (length + 1) :: inner
  | _ => some []

/-- The number of items, if all of them have the given shape. -/
def lengthOfShape? (shape : List Nat) : List Value → Option Nat
  | [] => some 0
  | item :: items => do
    let inner ← item.shape?
    if inner = shape then return (← lengthOfShape? shape items) + 1 else none

end

mutual

/-- The elements of nested lists in raster order. -/
def leaves : Value → List Value
  | list items => leavesOfItems items
  | value => [value]

def leavesOfItems : List Value → List Value
  | [] => []
  | item :: items => item.leaves ++ leavesOfItems items

end

/-- The shape of nested lists, which must have one. -/
def shape (value : Value) : Except Fault (List Nat) :=
  match value.shape? with
  | none => .error (.misuse .raggedNesting)
  | some shape =>
    if shape.length ≤ Shape.maxDimensions then .ok shape else .error (.misuse .unsupportedShape)

/-- A number other than zero is a set element; so is a value that is no number. -/
def isSetElement : Value → Bool
  | bool value => value
  | int value => value != 0
  | float value => value != 0
  | _ => true

/-- Text, and values that become text beside text. -/
def hasTextForm : Value → Bool
  | text _ | bool _ | float _ => true
  | int value => -9223372036854775808 ≤ value && value < 18446744073709551616
  | _ => false

def isText : Value → Bool
  | text _ => true
  | _ => false

/-- Which elements of an array are set. No text is zero. -/
def setElements (elements : List Value) : List Bool :=
  if elements.any isText && elements.all hasTextForm then elements.map fun _ ↦ true
  else elements.map isSetElement

end Value

namespace BitArray

/-- The array of the elements that are not zero. -/
def ofNested (value : Value) : Except Fault BitArray := do
  let shape ← value.shape
  let bits := (Value.setElements value.leaves).toArray
  if h : bits.size = shape.foldr (· * ·) 1 then return ⟨shape, bits, h⟩
  else .error (.misuse .raggedNesting)

end BitArray

/-- What may be handed over as a matrix. -/
inductive MatrixSource where
  | nested (value : Value)
  | dense (array : BitArray)
  | wrapped (matrix : BinaryMatrix)

namespace MatrixSource

def array (source : MatrixSource) : Except Fault BitArray :=
  match source with
  | nested value => BitArray.ofNested value
  | dense array => .ok array
  | wrapped matrix => .ok matrix.array

/-- The source as a matrix; one that is a matrix already keeps its own policy. -/
def toMatrix (source : MatrixSource) (policy : Value) : Except Fault BinaryMatrix :=
  match source with
  | nested .null => .error (.argument .missingMatrix)
  | wrapped matrix => .ok matrix
  | source => do BinaryMatrix.make (← source.array) policy

end MatrixSource

end ContourTracing
