import ContourTracing.Decimal.Binary

/-!
# Lengths of floating-point vectors

The length of a vector with floating-point coordinates is the value nearest to the exact one,
without overflow or underflow on the way. Long sums add halves of the list separately, so that
rounding errors grow with the logarithm of its length only.
-/

namespace ContourTracing.Decimal

/-- The value nearest to `√(n * 4 ^ exponent)`: the root is taken with at least 60 bits, and a bit
is appended that tells whether it is inexact. -/
def sqrtNearest (n : Nat) (exponent : Int) : Float :=
  let shift := 60 - min 60 (n.log2 / 2)
  let scaled := n * Nat.pow 4 shift
  let root := scaled.sqrt
  let sticky := if root * root = scaled then 0 else 1
  nearest (2 * root + sticky) (exponent - shift - 1)

/-- The length of the vector `(x, y)`; an infinite coordinate outweighs an undefined one. -/
def norm (x y : Float) : Float :=
  if x.isInf || y.isInf then 1.0 / 0.0
  else if x.isNaN || y.isNaN then 0.0 / 0.0
  else
    let a := Binary.ofFloat x
    let b := Binary.ofFloat y
    let exponent := min a.exponent b.exponent
    let m := a.significand * Nat.pow 2 (a.exponent - exponent).toNat
    let n := b.significand * Nat.pow 2 (b.exponent - exponent).toNat
    sqrtNearest (m * m + n * n) exponent

/-- Eight running sums over consecutive blocks of eight, and the rest of fewer than eight terms. -/
def blockSums : List Float → List Float → List Float × List Float
  | sums, a :: b :: c :: d :: e :: f :: g :: h :: rest =>
    blockSums (List.zipWith (· + ·) sums [a, b, c, d, e, f, g, h]) rest
  | sums, rest => (sums, rest)

/-- The sum of at most 128 terms. -/
def shortSum (terms : List Float) : Float :=
  match terms with
  | a :: b :: c :: d :: e :: f :: g :: h :: rest =>
    match blockSums [a, b, c, d, e, f, g, h] rest with
    | ([a, b, c, d, e, f, g, h], rest) =>
      rest.foldl (· + ·) (((a + b) + (c + d)) + ((e + f) + (g + h)))
    | (_, rest) => rest.foldl (· + ·) 0
  | _ => terms.foldl (· + ·) 0

/-- The pairwise sum; longer lists are cut near the middle, at a multiple of eight. -/
def pairwiseSum (terms : List Float) : Float :=
  if terms.length ≤ 128 then shortSum terms
  else
    let cut := terms.length / 2 - terms.length / 2 % 8
    pairwiseSum (terms.take cut) + pairwiseSum (terms.drop cut)
termination_by terms.length
decreasing_by all_goals simp only [List.length_take, List.length_drop]; omega

end ContourTracing.Decimal
