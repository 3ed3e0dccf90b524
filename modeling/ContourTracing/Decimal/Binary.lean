/-!
# Binary floating-point values

A finite binary64 value is a natural significand times a power of two, with a sign. The
decomposition is exact; everything that is printed or rounded starts from it.
-/

namespace ContourTracing.Decimal

/-- The magnitude `significand * 2 ^ exponent` of a finite value. -/
structure Binary where
  negative : Bool
  significand : Nat
  exponent : Int
deriving Repr

namespace Binary

/-- The sign, significand and exponent of a value that is neither infinite nor undefined. -/
def ofFloat (x : Float) : Binary :=
  let bits : Nat := x.toBits.toNat
  let biased : Nat := bits / Nat.pow 2 52 % Nat.pow 2 11
  let fraction : Nat := bits % Nat.pow 2 52
  { negative := bits / Nat.pow 2 63 = 1
    significand := if biased = 0 then fraction else Nat.pow 2 52 + fraction
    exponent := if biased = 0 then -1074 else (biased : Int) - 1075 }

/-- The magnitude as a quotient of natural numbers. -/
def fraction (b : Binary) : Nat × Nat :=
  if 0 ≤ b.exponent then (b.significand * Nat.pow 2 b.exponent.toNat, 1)
  else (b.significand, Nat.pow 2 (-b.exponent).toNat)

/-- The magnitude without its fraction, with the sign. -/
def truncated (b : Binary) : Int :=
  let (num, den) := b.fraction
  if b.negative then -(num / den : Nat) else (num / den : Nat)

end Binary

/-- The number `2 ^ 1024 - 2 ^ 970`, half a unit above the greatest finite value. Integers from
there on have no nearest finite value. -/
def finiteLimit : Nat :=
  (Nat.pow 2 54 - 1) * Nat.pow (Nat.pow 2 97) 10

def isInRange (n : Int) : Bool :=
  n.natAbs < finiteLimit

/-- The binary64 value nearest to an integer that is not too large. -/
def ofInt? (n : Int) : Option Float :=
  if isInRange n then some (Float.ofInt n) else none

/-- The binary64 value nearest to `n * 2 ^ exponent`. -/
def nearest (n : Nat) (exponent : Int) : Float :=
  if 0 ≤ exponent then Float.ofScientific (n * Nat.pow 2 exponent.toNat) false 0
  else Float.ofScientific (n * Nat.pow 5 (-exponent).toNat) true (-exponent).toNat

/-- The binary64 value nearest to a rational number whose parts are exact. -/
def ofRat (q : Rat) : Float :=
  Float.ofInt q.num / q.den.toFloat

end ContourTracing.Decimal
