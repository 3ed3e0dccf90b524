/-!
# Reading outside a matrix

Elements outside a matrix are background, or reading them is an error.
-/

namespace ContourTracing

inductive OutsidePolicy where
  | background
  | strict
deriving DecidableEq, Repr, Inhabited

namespace OutsidePolicy

def all : List OutsidePolicy := [background, strict]

def label : OutsidePolicy → String
  | background => "BACKGROUND"
  | strict => "STRICT"

/-- The word that stands for the policy in settings. -/
def word : OutsidePolicy → String
  | background => "background"
  | strict => "strict"

end OutsidePolicy

end ContourTracing
