import ContourTracing.Brackets
import ContourTracing.Matrix.Basic
import ContourTracing.Number
import ContourTracing.Shape

/-!
# Work buffers

A buffer for brackets may be handed in. It must be an array of the shape of the mask whose cells
lie in raster order and can be written; the kind of its elements does not matter.
-/

namespace ContourTracing

inductive ElementKind where
  | truth
  | byte
  | word
  | real
deriving DecidableEq, Repr

namespace ElementKind

/-- The size of an element in bytes. -/
def bytes : ElementKind → Nat
  | truth | byte => 1
  | word => 4
  | real => 8

/-- The cell of an integer that has to lie between two others. -/
def cellWithin? (least greatest value : Int) : Option Cell :=
  if least ≤ value ∧ value ≤ greatest then
    some (if value = 0 then .blank else .foreign (Float.ofInt value))
  else none

/-- The cell of a value as it is stored among elements of the kind; integers drop fractions. -/
def cell? (kind : ElementKind) (value : Value) : Option Cell :=
  match kind with
  | truth => some (if value.isEmpty then .blank else .foreign 1)
  | byte => do cellWithin? 0 255 (← value.whole?)
  | word => do cellWithin? (-2147483648) 2147483647 (← value.whole?)
  | real => do
    let x ← value.toFloat.toOption
    return if x == 0 then .blank else .foreign x

end ElementKind

/-- How the cells of an array lie in memory, and whether they can be written. -/
inductive CellOrder where
  | rows
  | columns
  | strided
  | readOnly
deriving DecidableEq, Repr

/-- Cells in another order than that of the rows are in raster order all the same if there is
nothing to tell the orders apart. -/
def CellOrder.isWriteableInOrder (order : CellOrder) (shape : List Nat) : Bool :=
  match order with
  | rows => true
  | columns => shape.any (· ≤ 1)
  | strided => Shape.size shape ≤ 1
  | readOnly => false

/-- `isWriteableInOrder` tells that the cells lie in raster order and can be written. -/
structure ArrayBuffer where
  shape : List Nat
  kind : ElementKind
  isWriteableInOrder : Bool
  cells : Cells

/-- What may be handed over as a buffer: an array, or anything else, of which only the name of
its kind matters. -/
inductive Buffer where
  | array (array : ArrayBuffer)
  | other (kind : String)

namespace ArrayBuffer

/-- An array of zeros in which elements are then set, each by its raster number; whether there
is such an element is looked at before the value. -/
def make (dimensions : List Int) (kind : ElementKind) (order : CellOrder)
    (elements : List (Int × Value)) : Except Fault ArrayBuffer := do
  let shape ← Shape.make kind.bytes dimensions
  let cells ← elements.foldlM setAt (Cells.blank (Shape.size shape))
  return ⟨shape, kind, order.isWriteableInOrder shape, cells⟩
where
  setAt (cells : Cells) (element : Int × Value) : Except Fault Cells := do
    let index ← Shape.raster cells.size element.1
    match kind.cell? element.2 with
    | some cell => return cells.setIfInBounds index cell
    | none => .error (.misuse .unfitElement)

/-- An array of truth values. -/
def ofBits (array : BitArray) : ArrayBuffer :=
  ⟨array.shape, .truth, true, array.bits.map fun bit ↦ if bit then .foreign 1 else .blank⟩

/-- Which elements are not zero. -/
def toBits (array : ArrayBuffer) : BitArray where
  shape := array.shape
  bits := Array.ofFn fun index : Fin (array.shape.foldr (· * ·) 1) ↦ array.cells.isMarked index
  size_bits := Array.size_ofFn

end ArrayBuffer

namespace Buffer

/-- The cells of a buffer that fits a mask. -/
def cellsFor (buffer : Buffer) (name : String) (mask : Mask) : Except Fault Cells :=
  match buffer with
  | other kind => .error (.argument (.bufferShape name mask.height mask.width kind))
  | array buffer =>
    if buffer.shape ≠ [mask.height, mask.width] then
      .error (.argument (.bufferShape name mask.height mask.width (Shape.text buffer.shape)))
    else if !buffer.isWriteableInOrder then .error (.argument (.bufferAccess name))
    else .ok buffer.cells

end Buffer

end ContourTracing
