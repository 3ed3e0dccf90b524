import ContourTracing.Fault
import ContourTracing.Mask

/-!
# Binary matrices

A binary matrix is an array of truth values of any number of dimensions, together with the
policy for reads outside. Shapes list the slowest dimension first: the last one counts columns
and the last but one rows. A plane matrix gives the mask whose boundaries are traced.
-/

namespace ContourTracing

/-- Truth values in raster order. -/
structure BitArray where
  shape : List Nat
  bits : Array Bool
  size_bits : bits.size = shape.foldr (· * ·) 1

namespace BitArray

def zeros (shape : List Nat) : BitArray where
  shape := shape
  bits := Array.replicate (shape.foldr (· * ·) 1) false
  size_bits := Array.size_replicate

def setAt (array : BitArray) (index : Nat) (value : Bool) : BitArray where
  shape := array.shape
  bits := array.bits.setIfInBounds index value
  size_bits := by simpa using array.size_bits

/-- Paints the columns `x, …, x + width - 1` of one row, as far as they exist. -/
def paintRow (array : BitArray) (columns x y : Nat) (value : Bool) : Nat → BitArray
  | 0 => array
  | width + 1 =>
    if x < columns then
      paintRow (array.setAt (y * columns + x) value) columns (x + 1) y value width
    else array

/-- Paints a rectangle of a plane array, cut off at its right and lower edge. -/
def paint (array : BitArray) (x y width : Nat) (value : Bool) : Nat → BitArray
  | 0 => array
  | height + 1 =>
    match array.shape with
    | [rows, columns] =>
      if y < rows then
        paint (array.paintRow columns x y value width) x (y + 1) width value height
      else array
    | _ => array

end BitArray

/-- The policy may be a value of any kind; only the member `strict` forbids reads outside. -/
structure BinaryMatrix where
  array : BitArray
  policy : Value

namespace BinaryMatrix

variable (matrix : BinaryMatrix)

def shape : List Nat :=
  matrix.array.shape

def dimCount : Nat :=
  matrix.shape.length

/-- The dimensions in the order of the coordinates, columns first. -/
def dimensions : List Nat :=
  matrix.shape.reverse

def dimX : Nat :=
  matrix.dimensions.headD 0

def dimY : Nat :=
  matrix.dimensions.getD 1 1

def size : Nat :=
  matrix.array.bits.size

def isStrict : Bool :=
  matrix.policy.policy? == some .strict

/-- A matrix needs a dimension, and a policy that is given as text needs to be the word of one. -/
def make (array : BitArray) (policy : Value) : Except Fault BinaryMatrix :=
  if array.shape.isEmpty then .error (.argument .noDimensions)
  else
    match policy with
    | .text word =>
      match OutsidePolicy.all.find? (·.word == word) with
      | some policy => .ok ⟨array, .member (.policy policy)⟩
      | none => .error (.misuse .unknownPolicy)
    | policy => .ok ⟨array, policy⟩

/-- The mask of a plane matrix. -/
def mask? : Option Mask :=
  match h : matrix.array.shape with
  | [height, width] =>
    some ⟨width, height, matrix.array.bits, by
      rw [matrix.array.size_bits, h]; simp [Nat.mul_comm]⟩
  | _ => none

end BinaryMatrix

end ContourTracing
