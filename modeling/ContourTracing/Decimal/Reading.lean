import ContourTracing.Decimal.Shortest
import ContourTracing.Text.Blank
import ContourTracing.Text.Digit

/-!
# Numbers in text

A number in text may stand between blanks. It has an optional sign, digits of any script with at
most one point among them, and an optional exponent; two digits may have an underscore between
them. The infinite values and the undefined one are words in any letter case.
-/

namespace ContourTracing.Decimal

/-- The ASCII digit for a digit of any script. -/
def asciiDigit (c : Char) : Char :=
  match Text.digitValue? c with
  | some d => Char.ofNat (48 + d)
  | none => c

/-- The characters without underscores, each of which has to stand between two digits. -/
def joined? (isAfterDigit : Bool) : List Char → Option (List Char)
  | [] => some []
  | ['_'] => none
  | '_' :: c :: cs =>
    if isAfterDigit && c.isDigit then (joined? true cs).map (c :: ·) else none
  | c :: cs => (joined? c.isDigit cs).map (c :: ·)

/-- Whether an optional sign is a minus, and what follows it. -/
def splitSign : List Char → Bool × List Char
  | '-' :: cs => (true, cs)
  | '+' :: cs => (false, cs)
  | cs => (false, cs)

/-- The sign of a number in text, and its magnitude in ASCII characters. -/
def magnitude? (text : String) : Option (Bool × List Char) := do
  let cs := (Text.stripWhere Text.isNumberBlank text.toList).map asciiDigit
  return splitSign (← joined? false cs)

/-- The natural number with the given digits, of which there has to be one. -/
def natural? (ds : List Char) : Option Nat :=
  if !ds.isEmpty && ds.all Char.isDigit then
    some (ds.foldl (fun n d ↦ 10 * n + (d.toNat - 48)) 0)
  else none

/-- An exponent with its letter; without one it is zero. -/
def exponent? : List Char → Option Int
  | [] => some 0
  | c :: cs =>
    if c = 'e' ∨ c = 'E' then do
      let (isNegative, ds) := splitSign cs
      let n ← natural? ds
      return if isNegative then -n else n
    else none

/-- A decimal with an optional point and an optional exponent. -/
def decimal? (cs : List Char) : Option Dec := do
  let whole := cs.takeWhile Char.isDigit
  let rest := cs.dropWhile Char.isDigit
  let (places, rest) := match rest with
    | '.' :: rest => (rest.takeWhile Char.isDigit, rest.dropWhile Char.isDigit)
    | rest => ([], rest)
  let digits ← natural? (whole ++ places)
  let exponent ← exponent? rest
  return ⟨digits, exponent - places.length⟩

/-- The binary64 value nearest to a decimal. Far outside the range of the finite values the number
of digits before the point decides. -/
def ofDec (d : Dec) : Float :=
  let places := d.exponent + (digits d.digits).length
  if d.digits = 0 ∨ places < -330 then 0
  else if 310 < places then 1.0 / 0.0
  else Float.ofScientific d.digits (d.exponent < 0) d.exponent.natAbs

def readFloat? (text : String) : Option Float := do
  let (isNegative, cs) ← magnitude? text
  let word := String.ofList (cs.map Char.toLower)
  let x ←
    if word == "inf" || word == "infinity" then some (1.0 / 0.0)
    else if word == "nan" then some (0.0 / 0.0)
    else (decimal? cs).map ofDec
  return if isNegative then -x else x

def readInt? (text : String) : Option Int := do
  let (isNegative, ds) ← magnitude? text
  let n ← natural? ds
  return if isNegative then -n else n

end ContourTracing.Decimal
