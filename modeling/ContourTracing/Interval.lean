import ContourTracing.Fault

/-!
# Check intervals

A scan asks its context after every so many steps. The interval is a positive integer.
-/

namespace ContourTracing.Interval

def ofValue (value : Value) : Except Fault Nat :=
  match value.int? with
  | none => .error (.argument (.intervalKind value))
  | some interval =>
    if interval < 1 then .error (.argument (.intervalRange interval)) else .ok interval.toNat

/-- The interval that a value gives, or the default if there is no value. -/
def ofValueOr (default : Nat) : Value → Except Fault Nat
  | .null => .ok default
  | value => ofValue value

end ContourTracing.Interval
