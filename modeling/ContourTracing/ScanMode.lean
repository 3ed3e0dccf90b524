/-!
# Scan modes

The modes differ in which boundaries the search for the next one visits: every edge of every run
of set pixels, every boundary once, or only the outer boundaries of outermost objects.
-/

namespace ContourTracing

inductive ScanMode where
  | single
  | all
  | main
deriving DecidableEq, Repr, Inhabited

namespace ScanMode

def members : List ScanMode := [single, all, main]

def label : ScanMode → String
  | single => "SINGLE"
  | all => "ALL"
  | main => "MAIN"

/-- The word that stands for the mode in settings. -/
def word : ScanMode → String
  | single => "single"
  | all => "all"
  | main => "main"

/-- How many buffers the mode takes from outside. -/
def bufferCount : ScanMode → Nat
  | single => 0
  | all => 2
  | main => 1

end ScanMode

end ContourTracing
