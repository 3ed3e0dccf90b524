import ContourTracing.Proofs.Circuit

/-!
# Winding numbers

A list of sides winds around a pixel as often as its left sides up to the pixel outnumber its
right sides before the pixel, both counted within the row. For a circulation, a list on which the
walk is a permutation, the number depends on no row: crossing any side of the list changes it by
one, and nothing else does (`winding_across`). Therefore it is constant on objects and on gaps and
zero outside the rectangle.
-/

namespace ContourTracing

/-- The left sides in the row of a pixel, up to its column. -/
def leftsUpTo (sides : List Position) (p : Pixel) : ℕ :=
  sides.countP fun s ↦ s.side = .left ∧ s.y = p.2 ∧ s.x ≤ p.1

/-- The right sides in the row of a pixel, before its column. -/
def rightsBefore (sides : List Position) (p : Pixel) : ℕ :=
  sides.countP fun s ↦ s.side = .right ∧ s.y = p.2 ∧ s.x < p.1

/-- The sides enclose a pixel if not every left side before it has its right side before it. -/
def Encloses (sides : List Position) (p : Pixel) : Prop :=
  leftsUpTo sides p ≠ rightsBefore sides p

instance (sides : List Position) (p : Pixel) : Decidable (Encloses sides p) :=
  inferInstanceAs (Decidable (_ ≠ _))

def winding (sides : List Position) (p : Pixel) : ℤ :=
  leftsUpTo sides p - rightsBefore sides p

theorem encloses_iff {sides : List Position} {p : Pixel} :
    Encloses sides p ↔ winding sides p ≠ 0 := by
  unfold Encloses winding
  omega

/-- A row without sides up to a pixel does not wind around it. -/
theorem winding_eq_zero {sides : List Position} {p : Pixel}
    (h : ∀ s ∈ sides, s.side.isVertical = true → s.y = p.2 → p.1 < s.edge) :
    winding sides p = 0 := by
  have hleft : leftsUpTo sides p = 0 := by
    apply List.countP_eq_zero.2
    intro s hs hcount
    obtain ⟨hside, hy, hx⟩ := of_decide_eq_true hcount
    have := h s hs (by simp [hside, Side.isVertical]) hy
    rw [Position.edge_left hside] at this
    omega
  have hright : rightsBefore sides p = 0 := by
    apply List.countP_eq_zero.2
    intro s hs hcount
    obtain ⟨hside, hy, hx⟩ := of_decide_eq_true hcount
    have := h s hs (by simp [hside, Side.isVertical]) hy
    rw [Position.edge_right hside] at this
    omega
  simp [winding, hleft, hright]

/-- One column more brings one more place for a side. -/
theorem countP_side_next (sides : List Position) (side : Side) (x y : ℤ) :
    sides.countP (fun s ↦ s.side = side ∧ s.y = y ∧ s.x < x + 1) =
      sides.countP (fun s ↦ s.side = side ∧ s.y = y ∧ s.x < x) + sides.count ⟨x, y, side⟩ := by
  induction sides with
  | nil => rfl
  | cons s sides ih =>
    obtain ⟨x', y', side'⟩ := s
    simp only [List.countP_cons, List.count_cons, beq_iff_eq, Position.mk.injEq, decide_eq_true_eq]
    by_cases hside : side' = side
    · simp only [hside, true_and, and_true]
      split <;> split <;> split <;> omega
    · simpa [hside] using ih

theorem leftsUpTo_next (sides : List Position) (x y : ℤ) :
    leftsUpTo sides (x + 1, y) = leftsUpTo sides (x, y) + sides.count ⟨x + 1, y, .left⟩ := by
  simp only [leftsUpTo, ← Int.lt_add_one_iff]
  exact countP_side_next sides .left (x + 1) y

theorem rightsBefore_next (sides : List Position) (x y : ℤ) :
    rightsBefore sides (x + 1, y) = rightsBefore sides (x, y) + sides.count ⟨x, y, .right⟩ :=
  countP_side_next sides .right x y

/-- What holds left of the rectangle and passes on along a row holds in the whole row. -/
@[elab_as_elim]
theorem column_induction {motive : ℤ → Prop} (left : ∀ x < 0, motive x)
    (next : ∀ x, motive x → motive (x + 1)) (x : ℤ) : motive x := by
  rcases lt_or_ge x 0 with hx | hx
  · exact left x hx
  · have h : -1 ≤ x := by omega
    induction x, h using Int.leInduction with
    | base => exact left (-1) (by omega)
    | succ x hle ih =>
      rcases lt_or_ge x 0 with hx' | hx'
      · exact next x (left x hx')
      · exact next x (ih hx')

/-- From a pixel to the next one in its row, only the two sides between them count. -/
theorem winding_next (sides : List Position) (x y : ℤ) :
    winding sides (x + 1, y) =
      winding sides (x, y) + sides.count ⟨x + 1, y, .left⟩ - sides.count ⟨x, y, .right⟩ := by
  unfold winding
  rw [leftsUpTo_next, rightsBefore_next]
  omega

theorem winding_next_of_not_mem {sides : List Position} {x y : ℤ}
    (hleft : (⟨x + 1, y, .left⟩ : Position) ∉ sides)
    (hright : (⟨x, y, .right⟩ : Position) ∉ sides) :
    winding sides (x + 1, y) = winding sides (x, y) := by
  rw [winding_next, List.count_eq_zero.2 hleft, List.count_eq_zero.2 hright]
  simp

/-- Along a stretch of a row without sides the winding number stays the same. -/
theorem winding_eq_of_forall_edge {sides : List Position} {x x' y : ℤ} (hle : x ≤ x')
    (h : ∀ s ∈ sides, s.side.isVertical = true → s.y = y → s.edge ≤ x ∨ x' < s.edge) :
    winding sides (x', y) = winding sides (x, y) := by
  induction x', hle using Int.leInduction with
  | base => rfl
  | succ x' hle ih =>
    have hleft : (⟨x' + 1, y, .left⟩ : Position) ∉ sides := fun hs ↦ by
      have hedge : x' + 1 ≤ x ∨ x' + 1 < x' + 1 := h _ hs rfl rfl
      omega
    have hright : (⟨x', y, .right⟩ : Position) ∉ sides := fun hs ↦ by
      have hedge : x' + 1 ≤ x ∨ x' + 1 < x' + 1 := h _ hs rfl rfl
      omega
    rw [winding_next_of_not_mem hleft hright]
    apply ih
    intro s hs hv hy
    have hedge := h s hs hv hy
    omega

namespace Mask

/-- A list of boundary sides in which every side occurs as often as the next one of its walk. -/
structure IsCirculation (mask : Mask) (connectivity : Connectivity) (sides : List Position) :
    Prop where
  isBoundary : ∀ s ∈ sides, mask.IsBoundary s
  count_successor : ∀ s, mask.IsBoundary s →
    sides.count (mask.successor connectivity s) = sides.count s

variable {mask : Mask} {connectivity : Connectivity} {sides : List Position} {s t : Position}
  {p q : Pixel}

theorem isCirculation_circuit (h : mask.IsBoundary s) :
    mask.IsCirculation connectivity (mask.circuit connectivity s) where
  isBoundary _ ht := isBoundary_of_mem_circuit h ht
  count_successor t ht := by
    simp only [count_circuit h, successor_mem_circuit_iff h ht]

namespace IsCirculation

theorem count_eq_zero (hc : mask.IsCirculation connectivity sides) (h : ¬ mask.IsBoundary s) :
    sides.count s = 0 :=
  List.count_eq_zero.2 fun hs ↦ h (hc.isBoundary s hs)

/-- At every corner as many sides of a circulation end as begin. -/
theorem flow (hc : mask.IsCirculation connectivity sides) (x y : ℤ) :
    sides.count ⟨x, y, .right⟩ + sides.count ⟨x + 1, y + 1, .left⟩ +
        sides.count ⟨x, y + 1, .top⟩ + sides.count ⟨x + 1, y, .bottom⟩ =
      sides.count ⟨x + 1, y, .left⟩ + sides.count ⟨x, y + 1, .right⟩ +
        sides.count ⟨x, y, .bottom⟩ + sides.count ⟨x + 1, y + 1, .top⟩ := by
  have hsucc := hc.count_successor
  have hzero := fun s ↦ hc.count_eq_zero (s := s)
  generalize (sides.count ·) = f at hsucc hzero ⊢
  -- the four sides that end at the corner
  have hright := hsucc ⟨x, y, .right⟩
  have hleft := hsucc ⟨x + 1, y + 1, .left⟩
  have htop := hsucc ⟨x, y + 1, .top⟩
  have hbottom := hsucc ⟨x + 1, y, .bottom⟩
  have hright₀ := hzero ⟨x, y, .right⟩
  have hleft₀ := hzero ⟨x + 1, y + 1, .left⟩
  have htop₀ := hzero ⟨x, y + 1, .top⟩
  have hbottom₀ := hzero ⟨x + 1, y, .bottom⟩
  -- the four sides that begin there
  have hright₁ := hzero ⟨x, y + 1, .right⟩
  have hleft₁ := hzero ⟨x + 1, y, .left⟩
  have htop₁ := hzero ⟨x + 1, y + 1, .top⟩
  have hbottom₁ := hzero ⟨x, y, .bottom⟩
  clear hsucc hzero
  simp only [IsBoundary, Position.across, Side.outward, successor, chooseStep, chooseTurn,
    Position.ahead, Position.aheadAcross, Side.along, Side.clockwise, Int.add_neg_cancel_right,
    Int.add_zero] at *
  cases connectivity <;> cases h₁ : mask.isSet x y <;> cases h₂ : mask.isSet (x + 1) y <;>
    cases h₃ : mask.isSet x (y + 1) <;> cases h₄ : mask.isSet (x + 1) (y + 1) <;>
      simp [h₁, h₂, h₃, h₄, Position.move, Side.step, Side.along, Side.outward, Side.clockwise,
        Side.counterclockwise] at * <;> omega

/-- From a pixel to the one below it, only the two sides between them count. -/
theorem winding_below (hc : mask.IsCirculation connectivity sides) (x y : ℤ) :
    winding sides (x, y + 1) =
      winding sides (x, y) + sides.count ⟨x, y + 1, .top⟩ - sides.count ⟨x, y, .bottom⟩ := by
  have hfar (x : ℤ) (hx : x < 0) : winding sides (x, y + 1) =
      winding sides (x, y) + sides.count ⟨x, y + 1, .top⟩ - sides.count ⟨x, y, .bottom⟩ := by
    have hzero (y : ℤ) : winding sides (x, y) = 0 := by
      apply winding_eq_zero
      intro s hs _ _
      have hcontains := contains_of_isBoundary (hc.isBoundary s hs)
      have hedge : s.x ≤ s.edge := by unfold Position.edge; split <;> omega
      exact lt_of_lt_of_le (lt_of_lt_of_le hx hcontains.1) hedge
    have hcount (y : ℤ) (side : Side) : sides.count ⟨x, y, side⟩ = 0 :=
      hc.count_eq_zero fun h ↦ absurd (contains_of_isBoundary h).1 (not_le.2 hx)
    simp [hzero, hcount]
  -- the difference of the two rows changes nowhere along the row
  induction x using column_induction with
  | left x hx => exact hfar x hx
  | next x ih =>
    have hflow := hc.flow x y
    rw [winding_next, winding_next, ih]
    omega

/-- Crossing a side of the circulation from inside to outside lowers the winding number. -/
theorem winding_across (hc : mask.IsCirculation connectivity sides) (s : Position) :
    winding sides s.across =
      winding sides s.pixel - sides.count s + sides.count s.flip := by
  obtain ⟨x, y, side⟩ := s
  cases side with
  | left =>
    have h := winding_next sides (x - 1) y
    simp only [Int.sub_add_cancel] at h
    simp only [Position.across, Position.pixel, Position.flip, Side.outward, Side.opposite,
      Int.add_zero, ← sub_eq_add_neg]
    omega
  | right =>
    have h := winding_next sides x y
    simp only [Position.across, Position.pixel, Position.flip, Side.outward, Side.opposite,
      Int.add_zero]
    omega
  | top =>
    have h := hc.winding_below x (y - 1)
    simp only [Int.sub_add_cancel] at h
    simp only [Position.across, Position.pixel, Position.flip, Side.outward, Side.opposite,
      Int.add_zero, ← sub_eq_add_neg]
    omega
  | bottom =>
    have h := hc.winding_below x y
    simp only [Position.across, Position.pixel, Position.flip, Side.outward, Side.opposite,
      Int.add_zero]
    omega

theorem winding_across_of_isBoundary (hc : mask.IsCirculation connectivity sides)
    (h : mask.IsBoundary s) :
    winding sides s.across = winding sides s.pixel - sides.count s := by
  rw [hc.winding_across, hc.count_eq_zero (not_isBoundary_flip h)]
  simp

theorem winding_across_of_not_mem (hc : mask.IsCirculation connectivity sides)
    (h : mask.IsBoundary s) (hs : s ∉ sides) : winding sides s.across = winding sides s.pixel := by
  rw [hc.winding_across_of_isBoundary h, List.count_eq_zero.2 hs]
  exact Int.sub_zero _

theorem winding_across_successor (hc : mask.IsCirculation connectivity sides)
    (h : mask.IsBoundary s) : winding sides (mask.successor connectivity s).across =
      winding sides (mask.successor connectivity s).pixel - sides.count s := by
  rw [hc.winding_across_of_isBoundary (isBoundary_successor h), hc.count_successor s h]

/-- Where no boundary runs between two pixels, their winding numbers agree. -/
theorem winding_across_eq (hc : mask.IsCirculation connectivity sides)
    (h : s.pixel ∈ mask.objectPixels ↔ s.across ∈ mask.objectPixels) :
    winding sides s.across = winding sides s.pixel := by
  have hs : ¬ mask.IsBoundary s := by
    rw [isBoundary_iff]
    tauto
  have hflip : ¬ mask.IsBoundary s.flip := by
    rw [isBoundary_iff, Position.pixel_flip, Position.across_flip]
    tauto
  rw [hc.winding_across, hc.count_eq_zero hs, hc.count_eq_zero hflip]
  simp

/-- Neighbours on one object have one winding number. -/
theorem winding_eq_of_adjacent (hc : mask.IsCirculation connectivity sides)
    (hp : p ∈ mask.objectPixels) (hq : q ∈ mask.objectPixels)
    (hadj : connectivity.Adjacent p q) : winding sides q = winding sides p := by
  rcases Connectivity.exists_of_adjacent hadj with ⟨s, rfl, rfl⟩ | ⟨rfl, s, rfl, rfl⟩
  · exact hc.winding_across_eq (by tauto)
  · by_cases hacross : s.across ∈ mask.objectPixels
    · have hnear := hc.winding_across_eq (s := s) (by tauto)
      have hfar := hc.winding_across_eq (s := ⟨s.across.1, s.across.2, s.side.clockwise⟩) (by
        rw [Position.across_turned_across]
        exact iff_of_true hacross hq)
      rw [Position.across_turned_across] at hfar
      exact hfar.trans hnear
    · -- the walk turns from one of the two pixels to the other around the unset pixel across
      have hs : mask.IsBoundary s := isBoundary_iff.2 ⟨hp, hacross⟩
      have hsucc : mask.successor .diagonal s =
          ⟨s.aheadAcross.1, s.aheadAcross.2, s.side.counterclockwise⟩ := by
        rcases successor_cases mask .diagonal s with ⟨-, hunset, -⟩ | ⟨-, -, heq⟩ |
          ⟨-, hunset, -⟩
        · exact absurd hq hunset
        · exact heq
        · exact absurd hq (hunset rfl)
      have hpixel : (mask.successor .diagonal s).pixel = s.aheadAcross := by
        rw [hsucc]
        rfl
      have hacross' : (mask.successor .diagonal s).across = s.across := by
        rw [hsucc, Position.across_diagonal]
      have hnear := hc.winding_across_of_isBoundary hs
      have hfar := hc.winding_across_successor hs
      rw [hacross', hpixel] at hfar
      calc
        _ = winding sides s.across + sides.count s := by rw [hfar, Int.sub_add_cancel]
        _ = winding sides s.pixel := by rw [hnear, Int.sub_add_cancel]

/-- Neighbours in one gap have one winding number, also outside of the rectangle. -/
theorem winding_eq_of_adjacent_opposite (hc : mask.IsCirculation connectivity sides)
    (hp : p ∉ mask.objectPixels) (hq : q ∉ mask.objectPixels)
    (hadj : connectivity.opposite.Adjacent p q) : winding sides q = winding sides p := by
  rcases Connectivity.exists_of_adjacent hadj with ⟨s, rfl, rfl⟩ | ⟨hopposite, s, rfl, rfl⟩
  · exact hc.winding_across_eq (by tauto)
  · obtain rfl : connectivity = .straight := by
      cases connectivity <;> simp_all [Connectivity.opposite]
    -- the sides of the pixel across that face the two pixels
    let near : Position := ⟨s.across.1, s.across.2, s.side.opposite⟩
    let far : Position := ⟨s.across.1, s.across.2, s.side.clockwise⟩
    have hnear : near.across = s.pixel := s.across_flip
    have hfar : far.across = s.aheadAcross := s.across_turned_across
    by_cases hacross : s.across ∈ mask.objectPixels
    · have hfarBoundary : mask.IsBoundary far := isBoundary_iff.2 ⟨hacross, hfar ▸ hq⟩
      have hahead : far.ahead = s.pixel := by
        have hturn : far.ahead =
          (⟨s.across.1, s.across.2, s.side.clockwise.clockwise⟩ : Position).across := rfl
        rw [hturn, Side.clockwise_clockwise]
        exact hnear
      have hsucc : mask.successor .straight far = near := by
        rcases successor_cases mask .straight far with ⟨hset, -⟩ | ⟨-, hset, -⟩ | ⟨-, -, heq⟩
        · exact absurd (hahead ▸ hset) hp
        · exact absurd (hahead ▸ hset rfl) hp
        · simpa [near, far] using heq
      have hnext := hc.winding_across_successor hfarBoundary
      rw [hsucc, hnear] at hnext
      calc
        _ = winding sides far.across := by rw [hfar]
        _ = winding sides s.across - sides.count far :=
          hc.winding_across_of_isBoundary hfarBoundary
        _ = winding sides s.pixel := hnext.symm
    · calc
        _ = winding sides far.across := by rw [hfar]
        _ = winding sides s.across := hc.winding_across_eq (by
          rw [hfar]
          exact iff_of_false hacross hq)
        _ = winding sides s.pixel := hc.winding_across_eq (by tauto)

/-- Nothing outside of the rectangle is enclosed. -/
theorem winding_eq_zero_of_not_contains (hc : mask.IsCirculation connectivity sides)
    (h : ¬ mask.Contains p.1 p.2) : winding sides p = 0 := by
  obtain ⟨x, y⟩ := p
  have habove (y : ℤ) (hy : y < 0) : winding sides (x, y) = 0 := by
    apply winding_eq_zero
    intro s hs _ heq
    have hcontains := contains_of_isBoundary (hc.isBoundary s hs)
    exact absurd hcontains.2.2.1 (by simp only at heq; omega)
  by_cases hx : 0 ≤ x ∧ x < mask.width
  · apply winding_eq_zero
    intro s hs _ heq
    have hcontains := contains_of_isBoundary (hc.isBoundary s hs)
    refine absurd ⟨hx.1, hx.2, ?_⟩ h
    simp only at heq
    exact heq ▸ hcontains.2.2
  · -- no side meets the column of the pixel, all the way up
    have hcount (y : ℤ) (side : Side) : sides.count ⟨x, y, side⟩ = 0 :=
      hc.count_eq_zero fun hb ↦ hx ⟨(contains_of_isBoundary hb).1, (contains_of_isBoundary hb).2.1⟩
    clear h
    induction y using column_induction with
    | left y hy => exact habove y hy
    | next y ih =>
      rw [hc.winding_below, ih, hcount, hcount]
      simp

theorem winding_eq_of_mem_objectAt (hc : mask.IsCirculation connectivity sides)
    (hp : p ∈ mask.objectPixels) (hq : q ∈ mask.objectAt connectivity p) :
    winding sides q = winding sides p :=
  Connectivity.eq_of_mem_component (winding sides) hp
    (fun _ _ ha hb hadj ↦ hc.winding_eq_of_adjacent ha hb hadj) hq

theorem winding_eq_of_mem_gapAt (hc : mask.IsCirculation connectivity sides)
    (hp : p ∈ mask.gapPixels) (hq : q ∈ mask.gapAt connectivity p) :
    winding sides q = winding sides p :=
  Connectivity.eq_of_mem_component (winding sides) hp
    (fun _ _ ha hb hadj ↦ hc.winding_eq_of_adjacent_opposite (mem_gapPixels_iff.1 ha).2
      (mem_gapPixels_iff.1 hb).2 hadj) hq

end IsCirculation

end Mask

end ContourTracing
