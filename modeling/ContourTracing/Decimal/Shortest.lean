import ContourTracing.Decimal.Binary
import ContourTracing.Decimal.Rounding

/-!
# Shortest decimals

A floating-point value is written with the fewest digits that still read back as this value, and
among those with the digits nearest to it, a tie going to the even digit. Numbers from `10 ^ -4`
up to `10 ^ 16` are written positionally and always show a point, all others with an exponent
of at least two digits.
-/

namespace ContourTracing.Decimal

/-- `digits * 10 ^ exponent`. -/
structure Dec where
  digits : Nat
  exponent : Int
deriving Repr, DecidableEq

namespace Binary

/-- The gap to the neighbour below a power of two is half the gap to the neighbour above. -/
def isNarrowBelow (b : Binary) : Bool :=
  b.significand = Nat.pow 2 52 && decide (-1074 < b.exponent)

/-- A decimal lies in the interval of reals that round to the magnitude; the ends of the interval
belong to it exactly if the significand is even. -/
def readsBack (b : Binary) (d : Dec) : Bool :=
  let scale := (max (-b.exponent) 0 + 2).toNat
  let den := Nat.pow 10 (-d.exponent).toNat
  let value := d.digits * Nat.pow 10 d.exponent.toNat * Nat.pow 2 scale
  let unit := Nat.pow 2 (b.exponent + scale).toNat * den
  let above := b.significand * unit + unit / 2
  let below := b.significand * unit - unit / if b.isNarrowBelow then 4 else 2
  if b.significand % 2 = 0 then below ≤ value && value ≤ above
  else below < value && value < above

/-- The neighbours of the magnitude with `count` digits, the nearer one first. -/
def neighbours (b : Binary) (count : Nat) : List Dec :=
  let (num, den) := b.fraction
  let exponent := leadingExponent num den + 1 - count
  let num := num * Nat.pow 10 (-exponent).toNat
  let den := den * Nat.pow 10 exponent.toNat
  let lower := num / den
  let best := roundDiv num den
  [⟨best, exponent⟩, ⟨if best = lower then lower + 1 else lower, exponent⟩]

/-- The shortest decimal that reads back; seventeen digits always do. -/
def shortest (b : Binary) : Dec :=
  let candidates := (List.range 17).flatMap fun count ↦ b.neighbours (count + 1)
  (candidates.find? b.readsBack).getD ((b.neighbours 17).headD ⟨0, 0⟩)

end Binary

/-- Digits without trailing zeros. -/
def stripZeros : Nat → Dec → Dec
  | 0, d => d
  | fuel + 1, d =>
    if d.digits ≠ 0 ∧ d.digits % 10 = 0 then stripZeros fuel ⟨d.digits / 10, d.exponent + 1⟩
    else d

/-- A decimal, positional or with an exponent by the exponent of its leading digit. -/
def layout (d : Dec) : List Char :=
  let d := stripZeros 32 d
  let ds := digits d.digits
  let leading : Int := d.exponent + ds.length - 1
  if leading < -4 ∨ 16 ≤ leading then
    let written := digits leading.natAbs
    let mantissa := match ds with
      | [] => []
      | [c] => [c]
      | c :: rest => c :: '.' :: rest
    mantissa ++ 'e' :: (if leading < 0 then '-' else '+') ::
      List.replicate (2 - written.length) '0' ++ written
  else if 0 ≤ d.exponent then ds ++ List.replicate d.exponent.toNat '0' ++ ['.', '0']
  else withPoint (-d.exponent).toNat d.digits

/-- The shortest text that reads back as the value. -/
def shortestText (x : Float) : String :=
  if x.isNaN then "nan"
  else if x.isInf then if x < 0 then "-inf" else "inf"
  else
    let b := Binary.ofFloat x
    let magnitude := if b.significand = 0 then ['0', '.', '0'] else layout b.shortest
    String.ofList ((if b.negative then ['-'] else []) ++ magnitude)

end ContourTracing.Decimal
