import ContourTracing.Fault

/-!
# Neighbours in any dimension

Tables of neighbours exist for one to nine dimensions.
-/

namespace ContourTracing.Connectivity

/-- The number of dimensions that a value gives. -/
def dimensionsOf (value : Value) : Except Fault Nat :=
  match value.int? with
  | none => .error (.argument (.dimensionCountKind value))
  | some count =>
    if count < 1 ∨ maxDimensions < count then .error (.argument (.dimensionCountRange count))
    else .ok count.toNat

/-- The offsets of all neighbours in as many dimensions as a value gives. -/
def neighbours (connectivity : Connectivity) (dimensions : Value) :
    Except Fault (List (List Int)) := do
  return connectivity.offsets (← dimensionsOf dimensions)

end ContourTracing.Connectivity
