import ContourTracing.Mask

/-!
# Brackets

A traced boundary leaves marks along its vertical sides in a buffer that has one cell for every
pixel: a left side is marked at its own pixel and a right side at the pixel after it, so that
the marks of a row open and close like brackets. A right side at the end of a row has no cell.
Any cell that is not blank counts as marked, whatever was stored in it before.
-/

namespace ContourTracing

/-- `foreign` is a value found in a buffer that was handed in. -/
inductive Cell where
  | blank
  | mark
  | foreign (value : Float)
deriving Inhabited

def Cell.isMarked : Cell → Bool
  | blank => false
  | mark | foreign _ => true

/-- The cells of a buffer in raster order. -/
abbrev Cells := Array Cell

namespace Cells

def blank (size : Nat) : Cells :=
  Array.replicate size .blank

def isMarked (cells : Cells) (index : Nat) : Bool :=
  (cells.getD index .blank).isMarked

def mark (cells : Cells) (index : Nat) : Cells :=
  cells.setIfInBounds index .mark

def clear (cells : Cells) (index : Nat) : Cells :=
  cells.setIfInBounds index .blank

/-- Marks `count` cells from `start` on. -/
def fill (cells : Cells) (start : Nat) : Nat → Cells
  | 0 => cells
  | count + 1 => fill (cells.mark start) (start + 1) count

@[simp]
theorem size_mark (cells : Cells) (index : Nat) : (cells.mark index).size = cells.size :=
  Array.size_setIfInBounds ..

@[simp]
theorem size_clear (cells : Cells) (index : Nat) : (cells.clear index).size = cells.size :=
  Array.size_setIfInBounds ..

@[simp]
theorem size_fill (cells : Cells) (start count : Nat) :
    (cells.fill start count).size = cells.size := by
  induction count generalizing cells start with
  | zero => rfl
  | succ count ih => simp [fill, ih]

@[simp]
theorem isMarked_blank (size index : Nat) : (blank size).isMarked index = false := by
  by_cases h : index < size <;>
    simp [isMarked, blank, Array.getD_eq_getD_getElem?, h, Cell.isMarked]

theorem isMarked_mark (cells : Cells) (index other : Nat) :
    (cells.mark index).isMarked other =
      ((decide (index = other) && decide (index < cells.size)) || cells.isMarked other) := by
  by_cases h : index = other
  · subst h
    by_cases hi : index < cells.size <;>
      simp [isMarked, mark, Array.getD_eq_getD_getElem?, hi, Cell.isMarked]
  · simp [isMarked, mark, Array.getD_eq_getD_getElem?, h]

theorem isMarked_clear (cells : Cells) (index other : Nat) :
    (cells.clear index).isMarked other = (!decide (index = other) && cells.isMarked other) := by
  by_cases h : index = other
  · subst h
    by_cases hi : index < cells.size <;>
      simp [isMarked, clear, Array.getD_eq_getD_getElem?, hi, Cell.isMarked]
  · simp [isMarked, clear, Array.getD_eq_getD_getElem?, h]

theorem isMarked_fill (cells : Cells) (start count other : Nat) :
    (cells.fill start count).isMarked other =
      (decide (start ≤ other ∧ other < start + count ∧ other < cells.size) ||
        cells.isMarked other) := by
  induction count generalizing cells start with
  | zero => simp [fill]; omega
  | succ count ih =>
    rw [fill, ih, size_mark, isMarked_mark]
    by_cases hs : start = other
    · subst hs
      have : ¬ start + 1 ≤ start := by omega
      simp [this]
    · have : (start + 1 ≤ other ∧ other < start + 1 + count ∧ other < cells.size) ↔
          (start ≤ other ∧ other < start + (count + 1) ∧ other < cells.size) := by omega
      rw [decide_eq_decide.mpr this, decide_eq_false hs, Bool.false_and, Bool.false_or]

end Cells

/-- The cell that holds the bracket of a position. -/
def Mask.bracketCell? (mask : Mask) (position : Position) : Option Nat :=
  match position.side with
  | .left => some (mask.index position.x position.y)
  | .right =>
    if position.x + 1 < mask.width then some (mask.index position.x position.y + 1) else none
  | .top | .bottom => none

namespace Cells

def hasBracket (cells : Cells) (mask : Mask) (position : Position) : Bool :=
  match mask.bracketCell? position with
  | some index => cells.isMarked index
  | none => false

def putBracket (cells : Cells) (mask : Mask) (position : Position) : Cells :=
  match mask.bracketCell? position with
  | some index => cells.mark index
  | none => cells

@[simp]
theorem size_putBracket (cells : Cells) (mask : Mask) (position : Position) :
    (cells.putBracket mask position).size = cells.size := by
  unfold putBracket
  split <;> simp

end Cells

/-- Boundaries of objects are external, boundaries of holes internal. -/
inductive BoundaryKind where
  | external
  | internal
deriving DecidableEq, Repr, Inhabited

/-- The brackets of external and of internal boundaries; without a second buffer the first one
serves for both. -/
structure BracketPair where
  first : Cells
  second : Option Cells

namespace BracketPair

def cells (pair : BracketPair) : BoundaryKind → Cells
  | .external => pair.first
  | .internal => pair.second.getD pair.first

def putBracket (pair : BracketPair) (mask : Mask) (kind : BoundaryKind) (position : Position) :
    BracketPair :=
  match kind, pair with
  | .external, ⟨first, second⟩ => ⟨first.putBracket mask position, second⟩
  | .internal, ⟨first, some second⟩ => ⟨first, some (second.putBracket mask position)⟩
  | .internal, ⟨first, none⟩ => ⟨first.putBracket mask position, none⟩

end BracketPair

end ContourTracing
