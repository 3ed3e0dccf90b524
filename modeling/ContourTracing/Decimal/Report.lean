import ContourTracing.Decimal.Binary
import ContourTracing.Decimal.Rounding

/-!
# Measured numbers in reports

Measurements are written with six places. From `10 ^ 15` on they are written with an exponent
and nine places instead. The exact binary value is rounded, a half to the even digit.
-/

namespace ContourTracing.Decimal

def report (x : Float) : String :=
  if x.isNaN then "nan"
  else if x.isInf then if x < 0 then "-inf" else "inf"
  else
    let b := Binary.ofFloat x
    let (num, den) := b.fraction
    let magnitude := if num < Nat.pow 10 15 * den then fixed 6 num den else scientific 9 num den
    String.ofList ((if b.negative then ['-'] else []) ++ magnitude)

def reportRat (q : Rat) : String :=
  report (ofRat q)

end ContourTracing.Decimal
