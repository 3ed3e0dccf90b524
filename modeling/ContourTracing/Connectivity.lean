/-!
# Connectivity

Two pixels are neighbours if they share a side or, under the wider connectivity, a side or a
corner. The same two notions exist in every dimension; the offsets of all neighbours are listed
in a fixed order.
-/

namespace ContourTracing

inductive Connectivity where
  | straight
  | diagonal
deriving DecidableEq, Repr, Inhabited

namespace Connectivity

def all : List Connectivity := [straight, diagonal]

def label : Connectivity → String
  | straight => "STRAIGHT_ONLY"
  | diagonal => "STRAIGHT_AND_DIAGONAL"

/-- The word that stands for the connectivity in settings. -/
def word : Connectivity → String
  | straight => "straight_only"
  | diagonal => "straight_and_diagonal"

def maxDimensions : Nat := 9

/-- All vectors over `-1, 0, 1`, the last coordinate changing fastest. -/
def cube : Nat → List (List Int)
  | 0 => [[]]
  | dimensions + 1 => [-1, 0, 1].flatMap fun digit ↦ (cube dimensions).map (digit :: ·)

/-- The vector with one coordinate and zeros elsewhere. -/
def onAxis (dimensions axis : Nat) (value : Int) : List Int :=
  (List.range dimensions).map fun other ↦ if other = axis then value else 0

/-- The offsets of all neighbours: axis by axis with `1` before `-1` for the straight ones, and
the cube without its centre for all of them. -/
def offsets (connectivity : Connectivity) (dimensions : Nat) : List (List Int) :=
  match connectivity with
  | straight =>
    (List.range dimensions).flatMap fun axis ↦
      [onAxis dimensions axis 1, onAxis dimensions axis (-1)]
  | diagonal => (cube dimensions).filter fun offset ↦ offset.any (· != 0)

def neighbourCount (connectivity : Connectivity) (dimensions : Nat) : Nat :=
  (connectivity.offsets dimensions).length

end Connectivity

end ContourTracing
