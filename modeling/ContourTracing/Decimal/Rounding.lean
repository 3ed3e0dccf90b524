/-!
# Rounded quotients and decimal digits

A quotient of natural numbers is rounded to the nearest integer, a half to the even neighbour.
Decimal notations with a set number of places are integers rounded in this way, with a point
put between their digits.
-/

namespace ContourTracing.Decimal

def roundDiv (num den : Nat) : Nat :=
  let q := num / den
  let r := num % den
  if 2 * r < den then q
  else if den < 2 * r then q + 1
  else if q % 2 = 0 then q
  else q + 1

def digits (n : Nat) : List Char :=
  Nat.toDigits 10 n

/-- The digits of a number with a point before the last `places` of them. -/
def withPoint (places n : Nat) : List Char :=
  if places = 0 then digits n
  else
    let ds := digits n
    let padded := List.replicate (places + 1 - ds.length) '0' ++ ds
    padded.take (padded.length - places) ++ '.' :: padded.drop (padded.length - places)

/-- The quotient with the given number of places. -/
def fixed (places num den : Nat) : List Char :=
  withPoint places (roundDiv (num * Nat.pow 10 places) den)

/-- The number of divisions by ten, `fuel` at most, that bring a quotient below one. -/
def placesBeforePoint (num den : Nat) : Nat → Nat
  | 0 => 0
  | fuel + 1 => if num < den then 0 else placesBeforePoint num (den * 10) fuel + 1

/-- The number of multiplications by ten, `fuel` at most, that bring a quotient to at least one. -/
def zerosAfterPoint (num den : Nat) : Nat → Nat
  | 0 => 0
  | fuel + 1 => if den ≤ num then 0 else zerosAfterPoint (num * 10) den fuel + 1

/-- The exponent of the leading digit of a quotient other than zero. -/
def leadingExponent (num den : Nat) : Int :=
  if den ≤ num then (placesBeforePoint num den (num.log2 + 1) : Int) - 1
  else -(zerosAfterPoint num den (den.log2 + 1) : Int)

/-- A quotient that is at least one with one digit before the point, the given number of places
after it and an exponent of at least two digits. -/
def scientific (places num den : Nat) : List Char :=
  let exponent := (leadingExponent num den).toNat
  let mantissa := roundDiv (num * Nat.pow 10 places) (den * Nat.pow 10 exponent)
  let (mantissa, exponent) :=
    if mantissa < Nat.pow 10 (places + 1) then (mantissa, exponent)
    else (mantissa / 10, exponent + 1)
  let written := digits exponent
  withPoint places mantissa ++ 'e' :: '+' :: List.replicate (2 - written.length) '0' ++ written

/-- A rational number with the given number of places. -/
def fixedRat (places : Nat) (q : Rat) : String :=
  String.ofList ((if q.num < 0 then ['-'] else []) ++ fixed places q.num.natAbs q.den)

end ContourTracing.Decimal
