import Mathlib.Data.Set.Basic
import Mathlib.Logic.Relation
import Mathlib.Tactic
import ContourTracing.Walk

/-!
# Pixels, neighbours and regions

The set pixels of a mask fall into objects, the components under the connectivity of the walk.
The unset pixels of the rectangle fall into gaps, the components under the opposite connectivity:
where corners connect objects they separate gaps, and the other way round. A gap that stays away
from the rim of the rectangle is a hole.
-/

namespace ContourTracing

abbrev Pixel := ℤ × ℤ

/-! ## Edges between pixels -/

@[simp]
theorem Side.clockwise_clockwise (side : Side) : side.clockwise.clockwise = side.opposite := by
  cases side <;> rfl

namespace Position

def pixel (s : Position) : Pixel :=
  (s.x, s.y)

/-- The same edge, seen from the pixel across it. -/
def flip (s : Position) : Position :=
  ⟨s.across.1, s.across.2, s.side.opposite⟩

@[simp]
theorem pixel_flip (s : Position) : s.flip.pixel = s.across := rfl

@[simp]
theorem across_flip (s : Position) : s.flip.across = s.pixel := by
  obtain ⟨x, y, side⟩ := s
  cases side <;> simp [flip, across, pixel, Side.opposite, Side.outward]

theorem across_right {s : Position} (h : s.side = .right) : s.across = (s.x + 1, s.y) := by
  simp [across, h, Side.outward]

/-- After a diagonal step the walk still has the same pixel across. -/
theorem across_diagonal (s : Position) :
    (⟨s.aheadAcross.1, s.aheadAcross.2, s.side.counterclockwise⟩ : Position).across = s.across := by
  obtain ⟨x, y, side⟩ := s
  cases side <;>
    simp [aheadAcross, ahead, across, Side.counterclockwise, Side.along, Side.clockwise,
      Side.outward]

/-- The pixel diagonally ahead lies ahead of the pixel across. -/
theorem across_turned_across (s : Position) :
    (⟨s.across.1, s.across.2, s.side.clockwise⟩ : Position).across = s.aheadAcross := by
  obtain ⟨x, y, side⟩ := s
  cases side <;> simp [aheadAcross, ahead, across, Side.along, Side.clockwise, Side.outward]

end Position

/-! ## Neighbours and components -/

namespace Connectivity

/-- Corners connect objects exactly if they do not connect gaps. -/
def opposite : Connectivity → Connectivity
  | straight => diagonal
  | diagonal => straight

def Adjacent (connectivity : Connectivity) (p q : Pixel) : Prop :=
  [q.1 - p.1, q.2 - p.2] ∈ connectivity.offsets 2

theorem mem_offsets_straight {dx dy : ℤ} :
    [dx, dy] ∈ straight.offsets 2 ↔
      dx = 1 ∧ dy = 0 ∨ dx = -1 ∧ dy = 0 ∨ dx = 0 ∧ dy = 1 ∨ dx = 0 ∧ dy = -1 := by
  have h : straight.offsets 2 = [[1, 0], [-1, 0], [0, 1], [0, -1]] := by decide
  simp [h]

theorem mem_offsets_diagonal {dx dy : ℤ} :
    [dx, dy] ∈ diagonal.offsets 2 ↔
      [dx, dy] ∈ straight.offsets 2 ∨ (dx = 1 ∨ dx = -1) ∧ (dy = 1 ∨ dy = -1) := by
  have h : diagonal.offsets 2 =
      [[-1, -1], [-1, 0], [-1, 1], [0, -1], [0, 1], [1, -1], [1, 0], [1, 1]] := by decide
  rw [mem_offsets_straight, h]
  simp
  omega

theorem Adjacent.symm {connectivity : Connectivity} {p q : Pixel}
    (h : connectivity.Adjacent p q) : connectivity.Adjacent q p := by
  unfold Adjacent at *
  cases connectivity with
  | straight => rw [mem_offsets_straight] at *; omega
  | diagonal => rw [mem_offsets_diagonal, mem_offsets_straight] at *; omega

theorem adjacent_across (connectivity : Connectivity) (s : Position) :
    connectivity.Adjacent s.pixel s.across := by
  have h : straight.Adjacent s.pixel s.across := by
    obtain ⟨x, y, side⟩ := s
    unfold Adjacent
    cases side <;> simp [mem_offsets_straight, Position.pixel, Position.across, Side.outward]
  cases connectivity with
  | straight => exact h
  | diagonal => exact mem_offsets_diagonal.2 (.inl h)

theorem adjacent_aheadAcross (s : Position) : diagonal.Adjacent s.pixel s.aheadAcross := by
  obtain ⟨x, y, side⟩ := s
  unfold Adjacent
  cases side <;>
    simp [mem_offsets_diagonal, Position.pixel, Position.aheadAcross, Position.ahead, Side.along,
      Side.clockwise, Side.outward]

theorem adjacent_across_aheadAcross (connectivity : Connectivity) (s : Position) :
    connectivity.Adjacent s.across s.aheadAcross := by
  rw [← s.across_turned_across]
  exact connectivity.adjacent_across _

/-- The pixels ahead and across meet in a corner. -/
theorem adjacent_across_ahead (s : Position) : diagonal.Adjacent s.across s.ahead := by
  obtain ⟨x, y, side⟩ := s
  unfold Adjacent
  cases side <;>
    simp [mem_offsets_diagonal, Position.across, Position.ahead, Side.along, Side.clockwise,
      Side.outward]

theorem adjacent_aheadAcross_ahead (connectivity : Connectivity) (s : Position) :
    connectivity.Adjacent s.aheadAcross s.ahead :=
  (connectivity.adjacent_across ⟨s.ahead.1, s.ahead.2, s.side⟩).symm

/-- Neighbours meet in an edge or, with corners connected, in a corner. -/
theorem exists_of_adjacent {connectivity : Connectivity} {p q : Pixel}
    (h : connectivity.Adjacent p q) :
    (∃ s : Position, s.pixel = p ∧ s.across = q) ∨
      connectivity = .diagonal ∧ ∃ s : Position, s.pixel = p ∧ s.aheadAcross = q := by
  obtain ⟨x, y⟩ := p
  obtain ⟨x', y'⟩ := q
  have hstraight (h : [x' - x, y' - y] ∈ straight.offsets 2) :
      ∃ s : Position, s.pixel = (x, y) ∧ s.across = (x', y') := by
    rcases mem_offsets_straight.1 h with ⟨hx, hy⟩ | ⟨hx, hy⟩ | ⟨hx, hy⟩ | ⟨hx, hy⟩
    · exact ⟨⟨x, y, .right⟩, rfl, by simp [Position.across, Side.outward]; omega⟩
    · exact ⟨⟨x, y, .left⟩, rfl, by simp [Position.across, Side.outward]; omega⟩
    · exact ⟨⟨x, y, .bottom⟩, rfl, by simp [Position.across, Side.outward]; omega⟩
    · exact ⟨⟨x, y, .top⟩, rfl, by simp [Position.across, Side.outward]; omega⟩
  cases connectivity with
  | straight => exact .inl (hstraight h)
  | diagonal =>
    rcases mem_offsets_diagonal.1 h with h | ⟨hx | hx, hy | hy⟩
    · exact .inl (hstraight h)
    all_goals refine .inr ⟨rfl, ?_⟩
    · exact ⟨⟨x, y, .right⟩, rfl, by
        simp [Position.aheadAcross, Position.ahead, Side.along, Side.clockwise, Side.outward]
        omega⟩
    · exact ⟨⟨x, y, .top⟩, rfl, by
        simp [Position.aheadAcross, Position.ahead, Side.along, Side.clockwise, Side.outward]
        omega⟩
    · exact ⟨⟨x, y, .bottom⟩, rfl, by
        simp [Position.aheadAcross, Position.ahead, Side.along, Side.clockwise, Side.outward]
        omega⟩
    · exact ⟨⟨x, y, .left⟩, rfl, by
        simp [Position.aheadAcross, Position.ahead, Side.along, Side.clockwise, Side.outward]
        omega⟩

/-- The pixels to which a chain of neighbours within the region leads from `p`. -/
def component (connectivity : Connectivity) (region : Set Pixel) (p : Pixel) : Set Pixel :=
  {q | Relation.ReflTransGen (fun a b ↦ connectivity.Adjacent a b ∧ b ∈ region) p q}

def components (connectivity : Connectivity) (region : Set Pixel) : Set (Set Pixel) :=
  connectivity.component region '' region

section Component

variable {connectivity : Connectivity} {region : Set Pixel} {p q r : Pixel}

theorem mem_component_self : p ∈ connectivity.component region p :=
  .refl

theorem mem_component_of_adjacent (h : q ∈ connectivity.component region p)
    (hadj : connectivity.Adjacent q r) (hr : r ∈ region) :
    r ∈ connectivity.component region p :=
  .tail h ⟨hadj, hr⟩

theorem component_subset (hp : p ∈ region) : connectivity.component region p ⊆ region := by
  intro q h
  induction h with
  | refl => exact hp
  | tail _ hstep _ => exact hstep.2

theorem mem_component_symm (hp : p ∈ region) (h : q ∈ connectivity.component region p) :
    p ∈ connectivity.component region q := by
  induction h with
  | refl => exact .refl
  | tail hchain hstep ih => exact .head ⟨hstep.1.symm, component_subset hp hchain⟩ ih

theorem component_eq_of_mem (hp : p ∈ region) (h : q ∈ connectivity.component region p) :
    connectivity.component region q = connectivity.component region p := by
  ext r
  exact ⟨fun hr ↦ Relation.ReflTransGen.trans h hr,
    fun hr ↦ Relation.ReflTransGen.trans (mem_component_symm hp h) hr⟩

theorem eq_component_of_mem {K : Set Pixel} (hK : K ∈ connectivity.components region)
    (hp : p ∈ K) : p ∈ region ∧ K = connectivity.component region p := by
  obtain ⟨q, hq, rfl⟩ := hK
  exact ⟨component_subset hq hp, (component_eq_of_mem hq hp).symm⟩

/-- What neighbours within a region share, a whole component shares. -/
theorem eq_of_mem_component {α : Type*} (f : Pixel → α) (hp : p ∈ region)
    (hf : ∀ a b, a ∈ region → b ∈ region → connectivity.Adjacent a b → f b = f a)
    (h : q ∈ connectivity.component region p) : f q = f p := by
  induction h with
  | refl => rfl
  | tail hchain hstep ih =>
    exact (hf _ _ (component_subset hp hchain) hstep.2 hstep.1).trans ih

end Component

end Connectivity

/-! ## Objects and gaps of a mask -/

namespace Mask

variable (mask : Mask) (connectivity : Connectivity)

def objectPixels : Set Pixel :=
  {p | mask.isSet p.1 p.2 = true}

def gapPixels : Set Pixel :=
  {p | mask.Contains p.1 p.2 ∧ mask.isSet p.1 p.2 = false}

def objectAt (p : Pixel) : Set Pixel :=
  connectivity.component mask.objectPixels p

def gapAt (p : Pixel) : Set Pixel :=
  connectivity.opposite.component mask.gapPixels p

def objects : Set (Set Pixel) :=
  connectivity.components mask.objectPixels

/-- The pixel lies in the first or the last row or column. -/
def IsOnRim (p : Pixel) : Prop :=
  p.1 = 0 ∨ p.1 + 1 = mask.width ∨ p.2 = 0 ∨ p.2 + 1 = mask.height

def holes : Set (Set Pixel) :=
  {U ∈ connectivity.opposite.components mask.gapPixels | ∀ p ∈ U, ¬ mask.IsOnRim p}

variable {mask} {connectivity} {s : Position} {p q : Pixel}

theorem isBoundary_iff :
    mask.IsBoundary s ↔ s.pixel ∈ mask.objectPixels ∧ s.across ∉ mask.objectPixels := by
  simp [IsBoundary, objectPixels, Position.pixel]

theorem not_isBoundary_flip (h : mask.IsBoundary s) : ¬ mask.IsBoundary s.flip := by
  rw [isBoundary_iff] at *
  simp [h.2]

theorem contains_of_mem_objectPixels (h : p ∈ mask.objectPixels) : mask.Contains p.1 p.2 :=
  mask.contains_of_isSet h

theorem mem_gapPixels_iff :
    p ∈ mask.gapPixels ↔ mask.Contains p.1 p.2 ∧ p ∉ mask.objectPixels := by
  simp [gapPixels, objectPixels]

end Mask

end ContourTracing
