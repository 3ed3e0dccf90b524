import ContourTracing.Position
import ContourTracing.Search

/-!
# Masks

A mask is a rectangle of pixels, each set or unset; everything outside the rectangle is unset.
Pixels are numbered in raster order, row by row from the top. The vertical sides of row `y` are
numbered in the same order: slot `2 * i` is the left side and slot `2 * i + 1` the right side of
the pixel with number `i`. A run edge is a slot at an end of a horizontal run of set pixels: its
pixel is set, and the pixel across the side is unset or lies beyond the row.
-/

namespace ContourTracing

structure Mask where
  width : Nat
  height : Nat
  bits : Array Bool
  size_bits : bits.size = width * height

namespace Mask

variable (mask : Mask)

def size : Nat :=
  mask.width * mask.height

/-- The pixel with the given raster number. -/
def bit (index : Nat) : Bool :=
  mask.bits.getD index false

def Contains (x y : Int) : Prop :=
  0 ≤ x ∧ x < mask.width ∧ 0 ≤ y ∧ y < mask.height

instance (x y : Int) : Decidable (mask.Contains x y) :=
  inferInstanceAs (Decidable (_ ∧ _))

/-- The raster number of a pixel of the rectangle. -/
def index (x y : Int) : Nat :=
  y.toNat * mask.width + x.toNat

def isSet (x y : Int) : Bool :=
  if mask.Contains x y then mask.bit (mask.index x y) else false

theorem isSet_of_not_contains {x y : Int} (h : ¬ mask.Contains x y) :
    mask.isSet x y = false := by
  simp [isSet, h]

theorem contains_of_isSet {x y : Int} (h : mask.isSet x y = true) : mask.Contains x y := by
  by_cases hc : mask.Contains x y
  · exact hc
  · simp [isSet, hc] at h

/-! ## Run edges -/

/-- The number of the slot at which a position lies; horizontal sides count with the left side. -/
def slot (position : Position) : Nat :=
  2 * mask.index position.x position.y + if position.side = .right then 1 else 0

/-- The position of a slot. -/
def atSlot (slot : Nat) : Position :=
  ⟨(slot / 2 % mask.width : Nat), (slot / 2 / mask.width : Nat),
    if slot % 2 = 0 then .left else .right⟩

theorem slot_atSlot (n : Nat) : mask.slot (mask.atSlot n) = n := by
  have h := Nat.div_add_mod' (n / 2) mask.width
  simp only [slot, index, atSlot, Int.toNat_natCast, h]
  split <;> simp <;> omega

theorem atSlot_slot {position : Position} (h : mask.Contains position.x position.y)
    (hv : position.side.isVertical = true) : mask.atSlot (mask.slot position) = position := by
  obtain ⟨x, y, side⟩ := position
  obtain ⟨hx, hw, hy, -⟩ : 0 ≤ x ∧ x < mask.width ∧ 0 ≤ y ∧ y < mask.height := h
  have hlt : x.toNat < mask.width := by omega
  have hdiv : (y.toNat * mask.width + x.toNat) / mask.width = y.toNat := by
    rw [Nat.mul_comm, Nat.mul_add_div (by omega), Nat.div_eq_of_lt hlt, Nat.add_zero]
  have hmod : (y.toNat * mask.width + x.toNat) % mask.width = x.toNat := by
    rw [Nat.mul_comm, Nat.mul_add_mod, Nat.mod_eq_of_lt hlt]
  have hhalf (n : Nat) : (2 * n + 1) / 2 = n := by omega
  cases side with
  | left =>
    simp [slot, index, atSlot, -Int.natCast_ediv, -Int.natCast_emod, hdiv, hmod,
      Int.toNat_of_nonneg hx, Int.toNat_of_nonneg hy]
  | right =>
    simp [slot, index, atSlot, -Int.natCast_ediv, -Int.natCast_emod, hhalf, hdiv, hmod,
      Int.toNat_of_nonneg hx, Int.toNat_of_nonneg hy]
  | top | bottom => cases hv

def isRunEdge (slot : Nat) : Bool :=
  let index := slot / 2
  let x := index % mask.width
  mask.bit index &&
    if slot % 2 = 0 then x == 0 || !mask.bit (index - 1)
    else x + 1 == mask.width || !mask.bit (index + 1)

/-- The left side of the first set pixel from a raster number on. -/
def runStartFrom (index : Nat) : Option Position :=
  (Search.first mask.bit index mask.size).map fun found ↦ mask.atSlot (2 * found)

/-- The first run edge after a position in raster order; all run edges lie after no position.
From a set pixel the search goes to the right side of the last pixel of its run, if it is not there
already, and else to the left side of the next set pixel. -/
def nextRunEdge (after : Option Position) : Option Position :=
  let index := match after with
    | none => 0
    | some position => mask.index position.x position.y
  if mask.bit index then
    match after with
    | none => some (mask.atSlot 0)
    | some position =>
      let rowEnd := (index / mask.width + 1) * mask.width
      let stop := (Search.first (fun i ↦ !mask.bit i) (index + 1) rowEnd).getD rowEnd
      if position.side = .right ∧ stop = index + 1 then mask.runStartFrom stop
      else some (mask.atSlot (2 * (stop - 1) + 1))
  else mask.runStartFrom (index + 1)

end Mask

end ContourTracing
