/-!
# Letter case towards ASCII

Lower and upper case of a text as far as the result can be an ASCII letter. Besides the ASCII
letters themselves, a few other letters and ligatures have an ASCII letter as their lower case
or ASCII letters as their upper case; every other character is kept, so that a text equals an
ASCII word after the change exactly if its full change of case does.
-/

namespace ContourTracing.Text

/-- The Kelvin sign has the lower case `k`. -/
def lowerChar (c : Char) : Char :=
  if c.toNat = 0x212A then 'k' else c.toLower

/-- The dotless `i`, the long and the sharp `s` and the Latin ligatures have ASCII upper case. -/
def upperChar (c : Char) : List Char :=
  match c.toNat with
  | 0x131 => ['I']
  | 0x17F => ['S']
  | 0xDF => ['S', 'S']
  | 0xFB00 => ['F', 'F']
  | 0xFB01 => ['F', 'I']
  | 0xFB02 => ['F', 'L']
  | 0xFB03 => ['F', 'F', 'I']
  | 0xFB04 => ['F', 'F', 'L']
  | 0xFB05 | 0xFB06 => ['S', 'T']
  | _ => [c.toUpper]

def lower (cs : List Char) : List Char :=
  cs.map lowerChar

def upper (cs : List Char) : List Char :=
  cs.flatMap upperChar

end ContourTracing.Text
