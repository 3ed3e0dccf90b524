/-!
# Blank characters

Blank characters are the white space of the character standard, together with the four
information separators.
-/

namespace ContourTracing.Text

def isBlank (c : Char) : Bool :=
  let n := c.toNat
  (0x09 ≤ n && n ≤ 0x0D) || (0x1C ≤ n && n ≤ 0x20) || n == 0x85 || n == 0xA0 || n == 0x1680 ||
    (0x2000 ≤ n && n ≤ 0x200A) || n == 0x2028 || n == 0x2029 || n == 0x202F || n == 0x205F ||
    n == 0x3000

/-- Blanks around a number; the information separators are not among them. -/
def isNumberBlank (c : Char) : Bool :=
  isBlank c && !(0x1C ≤ c.toNat && c.toNat < 0x20)

/-- The characters without those at both ends that are to be left out. -/
def stripWhere (isOut : Char → Bool) (cs : List Char) : List Char :=
  ((cs.dropWhile isOut).reverse.dropWhile isOut).reverse

/-- The characters without the blank ones at both ends. -/
def strip (cs : List Char) : List Char :=
  stripWhere isBlank cs

end ContourTracing.Text
