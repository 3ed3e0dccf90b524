import ContourTracing.Matrix.Basic

/-!
# Reading single elements

An element of a matrix is read by its column and its row, which may be values of any kind. A
coordinate lies inside if it is a number between zero and the dimension. Outside, the policy of
the matrix decides; inside, the row counts along the first dimension of the array and the column
along the second, and what is left of the array has to be a single element.
-/

namespace ContourTracing

namespace Value

/-- The value lies between zero and a dimension. -/
def isWithin (dimension : Nat) : Value → Except Fault Bool
  | bool value => .ok (value.toNat < dimension)
  | int value => .ok (0 ≤ value && value < dimension)
  | float value => .ok (0 ≤ value && value < dimension.toFloat)
  | _ => .error (.misuse .incomparable)

end Value

namespace BitArray

/-- The bits of the subarray at an index of the first dimension. -/
def slice (shape : List Nat) (bits : Array Bool) (index : Nat) :
    Except Fault (List Nat × Array Bool) :=
  match shape with
  | [] => .error (.misuse .noElement)
  | size :: rest =>
    if index < size then
      let stride := rest.foldr (· * ·) 1
      .ok (rest, bits.extract (index * stride) ((index + 1) * stride))
    else .error (.misuse .noElement)

/-- The bits at a list of coordinates, each an index along the next dimension. A truth value is no
index: it keeps all bits or none. -/
def select (shape : List Nat) (bits : Array Bool) : List Value → Except Fault (Array Bool)
  | [] => .ok bits
  | .int index :: rest => do
    let (shape, bits) ← slice shape bits index.toNat
    select shape bits rest
  | .bool keep :: rest => do
    let bits ← select shape bits rest
    return if keep then bits else #[]
  | _ :: _ => .error (.misuse .noElement)

end BitArray

namespace BinaryMatrix

variable (matrix : BinaryMatrix)

/-- The row is looked at only if the column lies inside. -/
def contains (x y : Value) : Except Fault Bool := do
  if ← x.isWithin matrix.dimX then y.isWithin matrix.dimY else return false

def get (x y : Value) : Except Fault Bool := do
  if ← matrix.contains x y then
    let bits ← BitArray.select matrix.shape matrix.array.bits [y, x]
    if bits.size = 1 then return bits.getD 0 false else .error (.misuse .ambiguousTruth)
  else if matrix.isStrict then
    .error (.bounds (.elementOutside x y matrix.dimX matrix.dimY))
  else return false

end BinaryMatrix

end ContourTracing
