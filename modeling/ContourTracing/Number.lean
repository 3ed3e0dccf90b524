import ContourTracing.Decimal.Reading
import ContourTracing.Fault

/-!
# Numbers that values stand for

Where a number is wanted, truth values are zero and one and text is read as a number.
-/

namespace ContourTracing

namespace Value

/-- The floating-point number that a value stands for; a missing number is undefined. -/
def toFloat : Value → Except Fault Float
  | null => .ok (0.0 / 0.0)
  | bool value => .ok (if value then 1 else 0)
  | int value =>
    match Decimal.ofInt? value with
    | some x => .ok x
    | none => .error (.misuse .tooLarge)
  | float value => .ok value
  | text value =>
    match Decimal.readFloat? value with
    | some x => .ok x
    | none => .error (.misuse .notANumber)
  | list _ => .error (.misuse .raggedNesting)
  | record _ | member _ => .error (.misuse .incomparable)

/-- The integer that a value stands for; fractions are dropped. -/
def whole? : Value → Option Int
  | bool value => some value.toNat
  | int value => some value
  | float value =>
    if value.isFinite then some (Decimal.Binary.ofFloat value).truncated else none
  | text value => Decimal.readInt? value
  | null | list _ | record _ | member _ => none

end Value

end ContourTracing
