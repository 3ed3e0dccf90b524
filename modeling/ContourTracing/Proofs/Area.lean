import Mathlib.Algebra.BigOperators.Group.Finset.Sigma
import Mathlib.Data.Set.Card
import ContourTracing.Proofs.Depth
import ContourTracing.Tally

/-!
# Areas

The area that a tally adds up is the sum of the winding numbers of all pixels of the rectangle
(`sum_areaAt_eq`). The boundary sides of an object, taken together, wind once around each pixel of
the object and around nothing else, so that their areas add up to its number of pixels.
-/

namespace ContourTracing

open Finset

theorem winding_cons (s : Position) (sides : List Position) (p : Pixel) :
    winding (s :: sides) p = winding [s] p + winding sides p := by
  unfold winding leftsUpTo rightsBefore
  simp only [List.countP_cons, List.countP_nil]
  push_cast
  ring

/-- A left side winds around the pixels from its own to the end of the row, a right side around
those behind it in the opposite sense. -/
theorem winding_singleton (s : Position) (x y : ℤ) :
    winding [s] (x, y) = if s.y = y ∧ s.edge ≤ x then
      if s.side = .left then 1 else if s.side = .right then -1 else 0 else 0 := by
  unfold winding leftsUpTo rightsBefore Position.edge
  obtain ⟨x', y', side⟩ := s
  cases side <;> simp [List.countP_cons]
  split <;> rfl

theorem sum_range_ite_le {a n : ℕ} (h : a ≤ n) (c : ℤ) :
    ∑ x ∈ range n, (if (a : ℤ) ≤ x then c else 0) = (n - a) * c := by
  induction n, h using Nat.le_induction with
  | base =>
    rw [sum_eq_zero fun x hx ↦ if_neg (by have := mem_range.1 hx; omega)]
    ring
  | succ n hle ih =>
    rw [sum_range_succ, ih, if_pos (by omega)]
    push_cast
    ring

namespace Mask

variable {mask : Mask} {connectivity : Connectivity} {sides : List Position} {s : Position}

/-- The winding numbers of all pixels of the rectangle, added up. -/
def windingSum (mask : Mask) (sides : List Position) : ℤ :=
  ∑ y ∈ range mask.height, ∑ x ∈ range mask.width, winding sides (x, y)

/-- The winding numbers at the ends of all rows, added up. -/
def surplus (mask : Mask) (sides : List Position) : ℤ :=
  ∑ y ∈ range mask.height, winding sides (mask.width, y)

theorem windingSum_singleton (h : mask.Contains s.x s.y) :
    mask.windingSum [s] = Tally.areaAt s + (mask.width - 1) * mask.surplus [s] := by
  obtain ⟨x, y, side⟩ := s
  obtain ⟨hx, hw, hy, hh⟩ : 0 ≤ x ∧ x < mask.width ∧ 0 ≤ y ∧ y < mask.height := h
  lift x to ℕ using hx
  lift y to ℕ using hy
  have hy : y ∈ range mask.height := mem_range.2 (by omega)
  -- only the row of the side counts
  have hrows (f : ℕ → ℤ) (hf : ∀ y' ∈ range mask.height, y' ≠ y → f y' = 0) :
      ∑ y' ∈ range mask.height, f y' = f y :=
    sum_eq_single y (fun y' hy' hne ↦ hf y' hy' hne) fun hout ↦ absurd hy hout
  simp only [windingSum, surplus, winding_singleton]
  rw [hrows _ fun y' _ hne ↦ sum_eq_zero fun x' _ ↦ if_neg fun hc ↦ hne (by omega),
    hrows _ fun y' _ hne ↦ if_neg fun hc ↦ hne (by omega)]
  cases side with
  | left =>
    have hsum := sum_range_ite_le (a := x) (n := mask.width) (by omega) 1
    simp [Position.edge, Tally.areaAt] at hsum ⊢
    rw [hsum, if_pos (by omega)]
    ring
  | right =>
    have hsum := sum_range_ite_le (a := x + 1) (n := mask.width) (by omega) (-1)
    simp [Position.edge, Tally.areaAt] at hsum ⊢
    rw [hsum, if_pos (by omega)]
    ring
  | top | bottom => simp [Tally.areaAt]

/-- What the sides add to the area is counted pixel by pixel, and once more at the end of every
row that does not close. -/
theorem windingSum_eq (h : ∀ s ∈ sides, mask.Contains s.x s.y) : mask.windingSum sides =
    (sides.map Tally.areaAt).sum + (mask.width - 1) * mask.surplus sides := by
  induction sides with
  | nil => simp [windingSum, surplus, winding, leftsUpTo, rightsBefore]
  | cons s sides ih =>
    have hsurplus : mask.surplus (s :: sides) = mask.surplus [s] + mask.surplus sides := by
      simp only [surplus, winding_cons s sides, sum_add_distrib]
    have hrest := ih fun t ht ↦ h t (List.mem_cons_of_mem s ht)
    calc
      _ = mask.windingSum [s] + mask.windingSum sides := by
        simp only [windingSum, winding_cons s sides, sum_add_distrib]
      _ = (Tally.areaAt s + (mask.width - 1) * mask.surplus [s]) +
          ((sides.map Tally.areaAt).sum + (mask.width - 1) * mask.surplus sides) := by
        rw [windingSum_singleton (h s List.mem_cons_self), hrest]
      _ = _ := by
        rw [hsurplus, List.map_cons, List.sum_cons]
        ring

theorem sum_areaAt_eq (hcontains : ∀ s ∈ sides, mask.Contains s.x s.y)
    (hrow : ∀ y : ℤ, winding sides (mask.width, y) = 0) :
    (sides.map Tally.areaAt).sum = mask.windingSum sides := by
  have hsurplus : mask.surplus sides = 0 := by
    apply sum_eq_zero
    intro y _
    exact hrow y
  rw [windingSum_eq hcontains, hsurplus]
  ring

/-! ## Boundary sides of an object -/

/-- A set of set pixels to which every set pixel across a side belongs as well. -/
structure IsWhole (mask : Mask) (K : Set Pixel) : Prop where
  subset : K ⊆ mask.objectPixels
  across_mem : ∀ s : Position, s.pixel ∈ K → s.across ∈ mask.objectPixels → s.across ∈ K

theorem isWhole_object {K : Set Pixel} (hK : K ∈ mask.objects connectivity) : mask.IsWhole K where
  subset _ hp := (Connectivity.eq_component_of_mem hK hp).1
  across_mem s hp hset := by
    rw [(Connectivity.eq_component_of_mem hK hp).2]
    exact Connectivity.mem_component_of_adjacent Connectivity.mem_component_self
      (connectivity.adjacent_across s) hset

theorem isWhole_objectPixels (mask : Mask) : mask.IsWhole mask.objectPixels where
  subset _ hp := hp
  across_mem _ _ hset := hset

/-- All boundary sides of an object together wind once around its pixels. -/
theorem IsWhole.winding_eq {K : Set Pixel} (hK : mask.IsWhole K)
    (hmem : ∀ s, s ∈ sides ↔ mask.IsBoundary s ∧ s.pixel ∈ K) (hnodup : sides.Nodup) (x y : ℤ) :
    winding sides (x, y) = K.indicator 1 (x, y) := by
  induction x using column_induction with
  | left x hx =>
    have hout : (x, y) ∉ K := fun h ↦
      absurd (contains_of_mem_objectPixels (hK.subset h)).1 (not_le.2 hx)
    rw [Set.indicator_of_notMem hout]
    apply winding_eq_zero
    intro s hs _ _
    have hcontains := contains_of_isBoundary ((hmem s).1 hs).1
    have hedge : s.x ≤ s.edge := by unfold Position.edge; split <;> omega
    exact lt_of_lt_of_le (lt_of_lt_of_le hx hcontains.1) hedge
  | next x ih =>
    let s : Position := ⟨x, y, .right⟩
    have hacross : s.across = (x + 1, y) := Position.across_right rfl
    have hflip : s.flip = ⟨x + 1, y, .left⟩ := by
      simp [s, Position.flip, Position.across, Side.outward, Side.opposite]
    have hright := hmem s
    have hleft := hmem s.flip
    rw [isBoundary_iff] at hright
    rw [isBoundary_iff, Position.pixel_flip, Position.across_flip] at hleft
    have hback := hK.across_mem s.flip
    rw [Position.pixel_flip, Position.across_flip] at hback
    have hstep := winding_next sides x y
    rw [ih, ← hflip, ← hacross] at hstep
    rw [← hacross, hstep]
    change K.indicator 1 s.pixel + (sides.count s.flip : ℤ) - sides.count s = _
    by_cases hpixel : s.pixel ∈ K <;> by_cases hnext : s.across ∈ K
    · have hset := hK.subset hnext
      have hset' := hK.subset hpixel
      rw [List.count_eq_zero.2 (by tauto : s ∉ sides),
        List.count_eq_zero.2 (by tauto : s.flip ∉ sides)]
      simp [hpixel, hnext]
    · have hset := hK.subset hpixel
      have hunset : s.across ∉ mask.objectPixels := fun h ↦ hnext (hK.across_mem s hpixel h)
      rw [List.count_eq_one_of_mem hnodup (by tauto : s ∈ sides),
        List.count_eq_zero.2 (by tauto : s.flip ∉ sides)]
      simp [hpixel, hnext]
    · have hset := hK.subset hnext
      have hunset : s.pixel ∉ mask.objectPixels := fun h ↦ hpixel (hback hnext h)
      rw [List.count_eq_zero.2 (by tauto : s ∉ sides),
        List.count_eq_one_of_mem hnodup (by tauto : s.flip ∈ sides)]
      simp [hpixel, hnext]
    · rw [List.count_eq_zero.2 (by tauto : s ∉ sides),
        List.count_eq_zero.2 (by tauto : s.flip ∉ sides)]
      simp [hpixel, hnext]

theorem sum_indicator_eq_ncard {K : Set Pixel} (hK : ∀ p ∈ K, mask.Contains p.1 p.2) :
    ∑ y ∈ range mask.height, ∑ x ∈ range mask.width, K.indicator (1 : Pixel → ℤ) (x, y) =
      K.ncard := by
  classical
  let place : ℕ × ℕ → Pixel := fun n ↦ (n.2, n.1)
  have hinj : Function.Injective place := fun m n h ↦ by
    simp only [place, Prod.mk.injEq, Nat.cast_inj] at h
    exact Prod.ext h.2 h.1
  have himage : place '' ((range mask.height ×ˢ range mask.width).filter (place · ∈ K)) = K := by
    ext ⟨x, y⟩
    simp only [Set.mem_image, mem_coe, mem_filter, mem_product, mem_range]
    constructor
    · rintro ⟨n, ⟨-, hn⟩, heq⟩
      rwa [← heq]
    · intro hp
      obtain ⟨hx, hw, hy, hh⟩ := hK _ hp
      simp only at hx hw hy hh
      lift x to ℕ using hx
      lift y to ℕ using hy
      exact ⟨(y, x), ⟨⟨by omega, by omega⟩, hp⟩, rfl⟩
  rw [← himage, Set.ncard_image_of_injective _ hinj, Set.ncard_coe_finset, himage, card_filter,
    sum_product]
  push_cast
  apply sum_congr rfl
  intro y _
  apply sum_congr rfl
  intro x _
  rw [Set.indicator_apply]
  rfl

/-- The areas of all boundary sides of an object add up to its number of pixels. -/
theorem IsWhole.sum_areaAt {K : Set Pixel} (hK : mask.IsWhole K)
    (hmem : ∀ s, s ∈ sides ↔ mask.IsBoundary s ∧ s.pixel ∈ K) (hnodup : sides.Nodup) :
    (sides.map Tally.areaAt).sum = K.ncard := by
  have hcontains (p : Pixel) (hp : p ∈ K) := contains_of_mem_objectPixels (hK.subset hp)
  have hrow (y : ℤ) : winding sides (mask.width, y) = 0 := by
    rw [hK.winding_eq hmem hnodup]
    exact Set.indicator_of_notMem (fun h ↦ absurd (hcontains _ h).2.1 (lt_irrefl _)) _
  calc
    _ = mask.windingSum sides :=
      sum_areaAt_eq (fun s hs ↦ contains_of_isBoundary ((hmem s).1 hs).1) hrow
    _ = ∑ y ∈ range mask.height, ∑ x ∈ range mask.width, K.indicator (1 : Pixel → ℤ) (x, y) := by
      apply sum_congr rfl
      intro y _
      apply sum_congr rfl
      intro x _
      exact hK.winding_eq hmem hnodup x y
    _ = K.ncard := sum_indicator_eq_ncard hcontains

end Mask

end ContourTracing
