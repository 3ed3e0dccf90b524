import Mathlib.Algebra.BigOperators.Intervals
import Mathlib.Data.Prod.Lex
import ContourTracing.Proofs.Depth

/-!
# Turning numbers

A circuit makes one full turn, clockwise around an object and counterclockwise around a hole. The
closed polygon through the middles of its sides does not meet itself, so that the turns of its
edges can be compared with the turns of the vectors between any two of its points: seen from the
topmost point, leftmost among those, all other points lie in one half-plane, and only the turns at
that point itself remain.

Middles of sides and corners are half-integer and are kept doubled.
-/

namespace ContourTracing

open Finset

/-! ## Middles and corners of sides -/

namespace Side

variable {a b : Side}

theorem along_fst_bounds (side : Side) : -1 ≤ side.along.1 ∧ side.along.1 ≤ 1 := by
  cases side <;> decide

theorem along_fst_add_bounds (h : a ≠ b) :
    -1 ≤ a.along.1 + b.along.1 ∧ a.along.1 + b.along.1 ≤ 1 := by
  revert h
  cases a <;> cases b <;> decide

end Side

namespace Position

variable {s t : Position}

/-- Twice the middle of the side. -/
def middle (s : Position) : ℤ × ℤ :=
  (2 * s.x, 2 * s.y) + s.side.outward

/-- Twice the corner at which the side ends. -/
def corner (s : Position) : ℤ × ℤ :=
  s.middle + s.side.along

theorem middle_eq_corner_add (s : Position) : s.middle = s.corner + s.side.opposite.along := by
  rw [corner, Side.along_opposite]
  ext <;> simp

/-- The side after a step begins where the side before it ends. -/
theorem middle_move (s : Position) (turn : Turn) : (s.move (s.side.step turn)).middle =
    s.corner + (s.move (s.side.step turn)).side.along := by
  obtain ⟨x, y, side⟩ := s
  cases side <;> cases turn <;>
    simp [middle, corner, move, Side.step, Side.along, Side.outward, Side.clockwise,
      Side.counterclockwise] <;> omega

/-- Corners of pixels lie whole pixels apart. -/
theorem two_dvd_corner_sub (s t : Position) :
    2 ∣ (t.corner - s.corner).1 ∧ 2 ∣ (t.corner - s.corner).2 := by
  obtain ⟨x, y, side⟩ := s
  obtain ⟨x', y', side'⟩ := t
  cases side <;> cases side' <;>
    simp [corner, middle, Side.along, Side.clockwise, Side.outward] <;> omega

/-- Four sides end at a corner, one in each direction. -/
theorem cases_of_corner_eq (h : t.corner = s.corner) :
    t = s ∨ t.pixel = s.aheadAcross ∨ t.pixel = s.across ∨ t.across = s.pixel := by
  obtain ⟨x, y, side⟩ := s
  obtain ⟨x', y', side'⟩ := t
  obtain ⟨hx, hy⟩ := Prod.mk.inj h
  cases side <;> cases side' <;>
    simp [middle, pixel, across, ahead, aheadAcross, Side.along, Side.outward,
      Side.clockwise] at hx hy ⊢ <;> omega

theorem eq_or_eq_flip_of_middle_eq (h : s.middle = t.middle) : s = t ∨ s = t.flip := by
  obtain ⟨x, y, side⟩ := s
  obtain ⟨x', y', side'⟩ := t
  obtain ⟨hx, hy⟩ := Prod.mk.inj h
  cases side <;> cases side' <;>
    simp [flip, across, Side.outward, Side.opposite] at hx hy ⊢ <;> omega

/-- Twice the vector from the middle of one side to that of another one. -/
def span (s t : Position) : ℤ × ℤ :=
  t.middle - s.middle

end Position

namespace Mask

variable {mask : Mask} {connectivity : Connectivity} {s t : Position}

theorem middle_successor (mask : Mask) (connectivity : Connectivity) (s : Position) :
    (mask.successor connectivity s).middle =
      s.corner + (mask.successor connectivity s).side.along :=
  s.middle_move _

theorem span_successor (mask : Mask) (connectivity : Connectivity) (s : Position) :
    s.span (mask.successor connectivity s) =
      s.side.along + (mask.successor connectivity s).side.along := by
  rw [Position.span, middle_successor, Position.corner]
  abel

theorem side_successor_ne_opposite (mask : Mask) (connectivity : Connectivity) (s : Position) :
    (mask.successor connectivity s).side ≠ s.side.opposite := by
  rcases mask.successor_cases connectivity s with ⟨-, -, h⟩ | ⟨-, -, h⟩ | ⟨-, -, h⟩ <;>
    simp only [h] <;> cases s.side <;> decide

/-- Where the walk goes straight on past a corner, no other side ends. -/
theorem eq_of_corner_eq (hs : mask.IsBoundary s) (ht : mask.IsBoundary t)
    (hstraight : (mask.successor connectivity s).side = s.side) (h : t.corner = s.corner) :
    t = s := by
  have hacross : s.aheadAcross ∉ mask.objectPixels := by
    rcases mask.successor_cases connectivity s with ⟨-, hacross, -⟩ | ⟨-, -, heq⟩ | ⟨-, -, heq⟩
    · exact hacross
    · simp only [heq] at hstraight
      exact absurd hstraight (by cases s.side <;> decide)
    · simp only [heq] at hstraight
      exact absurd hstraight (by cases s.side <;> decide)
  rw [isBoundary_iff] at hs ht
  rcases Position.cases_of_corner_eq h with heq | heq | heq | heq
  · exact heq
  · exact absurd (heq ▸ ht.1) hacross
  · exact absurd (heq ▸ ht.1) hs.2
  · exact absurd hs.1 (heq ▸ ht.2)

theorem middle_injOn (mask : Mask) : Set.InjOn Position.middle {s | mask.IsBoundary s} := by
  intro s hs t ht h
  rcases Position.eq_or_eq_flip_of_middle_eq h with heq | heq
  · exact heq
  · exact absurd (heq ▸ hs) (not_isBoundary_flip ht)

theorem span_ne_zero (hs : mask.IsBoundary s) (ht : mask.IsBoundary t) (h : s ≠ t) :
    s.span t ≠ 0 := fun hzero ↦
  h (mask.middle_injOn hs ht (sub_eq_zero.1 hzero).symm)

end Mask

/-! ## Half turns between vectors -/

/-- Tells the directions from rightwards clockwise up to leftwards, leftwards itself left out. -/
def lower (v : ℤ × ℤ) : ℤ :=
  if 0 < v.2 ∨ v.2 = 0 ∧ 0 < v.1 then 1 else 0

/-- Half a turn, clockwise or counterclockwise, for every passage over the horizontal axis. -/
def halfTurns (v w : ℤ × ℤ) : ℤ :=
  if 0 < v.1 + w.1 then lower w - lower v else lower v - lower w

theorem lower_neg {v : ℤ × ℤ} (h : v ≠ 0) : lower (-v) = 1 - lower v := by
  have hne : ¬ (v.1 = 0 ∧ v.2 = 0) := fun hv ↦ h (Prod.ext hv.1 hv.2)
  simp only [lower, Prod.fst_neg, Prod.snd_neg]
  split <;> split <;> omega

theorem halfTurns_of_pos {v w : ℤ × ℤ} (h : 0 < v.1 + w.1) :
    halfTurns v w = lower w - lower v :=
  if_pos h

theorem halfTurns_of_neg {v w : ℤ × ℤ} (h : v.1 + w.1 < 0) :
    halfTurns v w = lower v - lower w :=
  if_neg (not_lt.2 h.le)

theorem halfTurns_of_lower_eq {v w : ℤ × ℤ} (h : lower v = lower w) : halfTurns v w = 0 := by
  unfold halfTurns
  split <;> omega

/-- The vector between the ends of two unit vectors that begin at points `d` apart. -/
def between (d : ℤ × ℤ) (a b : Side) : ℤ × ℤ :=
  d + b.along - a.along

theorem lower_between {d : ℤ × ℤ} {a b : Side} (hx : d.1 = 0) (hy : 2 ≤ d.2 ∨ d.2 ≤ -2)
    (h : between d a b ≠ 0) : lower (between d a b) = if 0 < d.2 then 1 else 0 := by
  obtain ⟨dx, dy⟩ := d
  simp only at hx hy
  subst hx
  unfold between lower at *
  cases a <;> cases b <;> simp [Side.along, Side.clockwise, Side.outward] at * <;> omega

/-- Two edges of a polygon, each with its ends one step from a corner, do not get in each other's
way: to go first along the one and then along the other turns as far as the other way round. -/
theorem halfTurns_between {d : ℤ × ℤ} {a a' b b' : Side} (hd : 2 ∣ d.1 ∧ 2 ∣ d.2)
    (ha : a ≠ a') (hb : b ≠ b') (hcorner : d = 0 → a' ≠ a.opposite)
    (h : ∀ i ∈ [a, a'], ∀ j ∈ [b, b'], between d i j ≠ 0) :
    halfTurns (between d a b) (between d a' b) + halfTurns (between d a' b) (between d a' b') =
      halfTurns (between d a b) (between d a b') +
        halfTurns (between d a b') (between d a' b') := by
  by_cases hzero : d = 0
  · subst hzero
    clear hd
    have hcorner := hcorner rfl
    revert ha hb hcorner h
    cases a <;> cases a' <;> cases b <;> cases b' <;> decide
  · have haa := Side.along_fst_add_bounds ha
    have hbb := Side.along_fst_add_bounds hb
    have hbounds (side : Side) := side.along_fst_bounds
    have hfst (i j : Side) : (between d i j).1 = d.1 + j.along.1 - i.along.1 := rfl
    have := hbounds a
    have := hbounds a'
    have := hbounds b
    have := hbounds b'
    rcases lt_trichotomy d.1 0 with hx | hx | hx
    · rw [halfTurns_of_neg, halfTurns_of_neg, halfTurns_of_neg, halfTurns_of_neg]
      · ring
      all_goals
        simp only [hfst]
        omega
    · have hy : 2 ≤ d.2 ∨ d.2 ≤ -2 := by
        have hne : d.2 ≠ 0 := fun hy ↦ hzero (Prod.ext hx hy)
        omega
      have hlower (i) (hi : i ∈ [a, a']) (j) (hj : j ∈ [b, b']) :=
        lower_between hx hy (h i hi j hj)
      simp only [List.mem_cons, List.not_mem_nil, or_false, forall_eq_or_imp, forall_eq] at hlower
      obtain ⟨⟨h₁, h₂⟩, h₃, h₄⟩ := hlower
      rw [halfTurns_of_lower_eq (h₁.trans h₃.symm), halfTurns_of_lower_eq (h₃.trans h₄.symm),
        halfTurns_of_lower_eq (h₁.trans h₂.symm), halfTurns_of_lower_eq (h₂.trans h₄.symm)]
    · rw [halfTurns_of_pos, halfTurns_of_pos, halfTurns_of_pos, halfTurns_of_pos]
      · ring
      all_goals
        simp only [hfst]
        omega

namespace Mask

variable {mask : Mask} {connectivity : Connectivity} {s t b : Position}

theorem halfTurns_span (connectivity : Connectivity) (hs : mask.IsBoundary s)
    (ht : mask.IsBoundary t) (hst : s ≠ t) (hst' : s ≠ mask.successor connectivity t)
    (hnext : mask.successor connectivity s ≠ t)
    (hnext' : mask.successor connectivity s ≠ mask.successor connectivity t) :
    halfTurns (s.span t) ((mask.successor connectivity s).span t) +
        halfTurns ((mask.successor connectivity s).span t)
          ((mask.successor connectivity s).span (mask.successor connectivity t)) =
      halfTurns (s.span t) (s.span (mask.successor connectivity t)) +
        halfTurns (s.span (mask.successor connectivity t))
          ((mask.successor connectivity s).span (mask.successor connectivity t)) := by
  have hs' : mask.IsBoundary (mask.successor connectivity s) := isBoundary_successor hs
  have ht' : mask.IsBoundary (mask.successor connectivity t) := isBoundary_successor ht
  have hne := span_ne_zero hs ht hst
  have hne' := span_ne_zero hs ht' hst'
  have hne'' := span_ne_zero hs' ht hnext
  have hne''' := span_ne_zero hs' ht' hnext'
  -- all four vectors lead from near the corner behind `s` to near the corner behind `t`
  have hspan (u v : Position) (i j : Side) (hu : u.middle = s.corner + i.along)
      (hv : v.middle = t.corner + j.along) :
      u.span v = between (t.corner - s.corner) i j := by
    rw [Position.span, hu, hv, between]
    abel
  rw [hspan s t _ _ s.middle_eq_corner_add t.middle_eq_corner_add] at *
  rw [hspan _ t _ _ (mask.middle_successor connectivity s) t.middle_eq_corner_add] at *
  rw [hspan s _ _ _ s.middle_eq_corner_add (mask.middle_successor connectivity t)] at *
  rw [hspan _ _ _ _ (mask.middle_successor connectivity s)
    (mask.middle_successor connectivity t)] at *
  apply halfTurns_between (Position.two_dvd_corner_sub s t)
    (mask.side_successor_ne_opposite connectivity s).symm
    (mask.side_successor_ne_opposite connectivity t).symm
  · intro hzero hstraight
    rw [Side.opposite_opposite] at hstraight
    exact hst (eq_of_corner_eq hs ht hstraight (sub_eq_zero.1 hzero)).symm
  · simp only [List.mem_cons, List.not_mem_nil, or_false, forall_eq_or_imp, forall_eq]
    exact ⟨⟨hne, hne'⟩, hne'', hne'''⟩

end Mask

/-! ## Sums over the pairs of points of a polygon -/

section Sums

variable {a b : ℕ → ℕ → ℤ}

theorem sum_Ico_row {l k j : ℕ} (hle : l ≤ k)
    (h : ∀ i, l ≤ i → i < k → a i j + b (i + 1) j = b i j + a i (j + 1)) :
    ∑ i ∈ Ico l k, a i j + b k j = b l j + ∑ i ∈ Ico l k, a i (j + 1) := by
  induction k, hle using Nat.le_induction with
  | base => simp
  | succ k hle ih =>
    have hrest := ih fun i hi hik ↦ h i hi (by omega)
    have hlast := h k hle (Nat.lt_succ_self k)
    rw [sum_Ico_succ_top hle, sum_Ico_succ_top hle]
    linarith

/-- From pair to pair of neighbours it is as far as along the first row and up the last column. -/
theorem sum_diagonal {m : ℕ}
    (h : ∀ i j, i + 1 < j → j ≤ m → a i j + b (i + 1) j = b i j + a i (j + 1)) :
    ∑ i ∈ range m, (b i (i + 1) + a i (i + 2)) =
      ∑ i ∈ range m, b 0 (i + 1) + ∑ i ∈ range m, a i (m + 1) := by
  induction m with
  | zero => simp
  | succ m ih =>
    have hrest := ih fun i j hij hj ↦ h i j hij (by omega)
    have hrow := sum_Ico_row (Nat.zero_le m) fun i _ hi ↦
      h i (m + 1) (by omega) le_rfl
    rw [Nat.Ico_zero_eq_range] at hrow
    rw [sum_range_succ, hrest, sum_range_succ, sum_range_succ]
    linarith

theorem sum_range_succ_of_periodic {M : Type*} [AddCancelCommMonoid M] {g : ℕ → M} {n : ℕ}
    (h : g n = g 0) : ∑ i ∈ range n, g (i + 1) = ∑ i ∈ range n, g i := by
  have htop := sum_range_succ g n
  have hbottom := sum_range_succ' g n
  rw [h, hbottom] at htop
  exact add_right_cancel htop

end Sums

/-! ## The turns of a circuit -/

/-- The number of quarter turns clockwise. -/
def Turn.quarters : Turn → ℤ
  | .straight => 0
  | .diagonal => -1
  | .rotation => 1

namespace Side

variable {a b : Side}

/-- The half turns from the first of three consecutive sides to the last one, between the edges
that join their middles. -/
def bend (a b c : Side) : ℤ :=
  halfTurns (a.along + b.along) (a.along + 2 • b.along + c.along) +
    halfTurns (a.along + 2 • b.along + c.along) (b.along + c.along)

/-- The eighths of a turn since the last passage over the horizontal axis. -/
def phase (side : Side) (turn : Turn) : ℤ :=
  (2 * side.code + turn.quarters + 2) % 4

theorem four_mul_bend (side : Side) (turn turn' : Turn) :
    let side' := (side.step turn).newSide
    4 * bend side side' (side'.step turn').newSide =
      turn.quarters + turn'.quarters + side.phase turn - side'.phase turn' := by
  cases side <;> cases turn <;> cases turn' <;> decide

/-- At the topmost point of a polygon the edges and the vectors next to them turn fully. -/
theorem bend_topmost {a b c : Side} (hab : b ≠ a.opposite) (hbc : c ≠ b.opposite)
    (hbefore : lower (-(a.along + b.along)) = 1) (hbehind : lower (b.along + c.along) = 1) :
    b.isHorizontal = true ∧
    halfTurns (-(a.along + b.along)) (-(a.along + 2 • b.along + c.along)) +
      halfTurns (-(a.along + 2 • b.along + c.along)) (-(b.along + c.along)) + bend a b c =
        if b = .top then 2 else -2 := by
  revert hab hbc hbefore hbehind
  cases a <;> cases b <;> cases c <;> decide

theorem along_add_ne_zero (h : b ≠ a.opposite) :
    a.along + b.along ≠ 0 ∧ a.along + 2 • b.along + a.along ≠ 0 := by
  revert h
  cases a <;> cases b <;> decide

end Side

namespace Position

theorem span_self (s : Position) : s.span s = 0 :=
  sub_self _

theorem span_add (s t u : Position) : s.span t + t.span u = s.span u := by
  unfold span
  abel

theorem neg_span (s t : Position) : -s.span t = t.span s :=
  neg_sub _ _

end Position

namespace Mask

variable {mask : Mask} {connectivity : Connectivity} {e s t : Position} {i j : ℕ}

/-- The side after so many steps. -/
def walk (mask : Mask) (connectivity : Connectivity) (s : Position) (i : ℕ) : Position :=
  (mask.successor connectivity)^[i] s

theorem walk_succ (mask : Mask) (connectivity : Connectivity) (s : Position) (i : ℕ) :
    mask.walk connectivity s (i + 1) = mask.successor connectivity (mask.walk connectivity s i) :=
  Function.iterate_succ_apply' ..

theorem walk_period (mask : Mask) (connectivity : Connectivity) (s : Position) :
    mask.walk connectivity s (mask.period connectivity s) = s :=
  mask.iterate_period connectivity s

theorem walk_period_add (mask : Mask) (connectivity : Connectivity) (s : Position) (i : ℕ) :
    mask.walk connectivity s (mask.period connectivity s + i) = mask.walk connectivity s i := by
  rw [Nat.add_comm, walk, Function.iterate_add_apply, iterate_period, walk]

theorem isBoundary_walk (connectivity : Connectivity) (h : mask.IsBoundary s) (i : ℕ) :
    mask.IsBoundary (mask.walk connectivity s i) :=
  isBoundary_iterate h i

theorem walk_mem_circuit (h : mask.IsBoundary s) (i : ℕ) :
    mask.walk connectivity s i ∈ mask.circuit connectivity s :=
  (mem_circuit_iff h).2 ⟨i, rfl⟩

theorem walk_ne_walk (hij : i < j) (hj : j < mask.period connectivity s) :
    mask.walk connectivity s i ≠ mask.walk connectivity s j := fun heq ↦
  hij.ne (mask.iterate_injOn_period connectivity s (hij.trans hj) hj heq)

theorem walk_ne_self (hi : 0 < i) (hlt : i < mask.period connectivity s) :
    mask.walk connectivity s i ≠ s :=
  iterate_ne_self hi hlt

theorem span_walk_succ (mask : Mask) (connectivity : Connectivity) (s : Position) (i : ℕ) :
    (mask.walk connectivity s i).span (mask.walk connectivity s (i + 1)) =
      (mask.walk connectivity s i).side.along + (mask.walk connectivity s (i + 1)).side.along := by
  rw [walk_succ, span_successor]

theorem span_walk_add_two (mask : Mask) (connectivity : Connectivity) (s : Position) (i : ℕ) :
    (mask.walk connectivity s i).span (mask.walk connectivity s (i + 2)) =
      (mask.walk connectivity s i).side.along +
        2 • (mask.walk connectivity s (i + 1)).side.along +
          (mask.walk connectivity s (i + 2)).side.along := by
  rw [← Position.span_add _ (mask.walk connectivity s (i + 1)), span_walk_succ,
    span_walk_succ mask connectivity s (i + 1)]
  abel

theorem side_walk_ne_opposite (mask : Mask) (connectivity : Connectivity) (s : Position) (i : ℕ) :
    (mask.walk connectivity s (i + 1)).side ≠ (mask.walk connectivity s i).side.opposite := by
  rw [walk_succ]
  exact mask.side_successor_ne_opposite connectivity _

/-- One or two steps do not lead back. -/
theorem three_le_period (h : mask.IsBoundary s) : 3 ≤ mask.period connectivity s := by
  have hpos : 0 < mask.period connectivity s := period_pos h
  have hback := mask.walk_period connectivity s
  have hself : mask.walk connectivity s 0 = s := rfl
  have hone := mask.span_walk_succ connectivity s 0
  have htwo := mask.span_walk_add_two connectivity s 0
  obtain ⟨hone', htwo'⟩ := Side.along_add_ne_zero (mask.side_walk_ne_opposite connectivity s 0)
  by_contra hless
  obtain hperiod | hperiod : mask.period connectivity s = 1 ∨ mask.period connectivity s = 2 := by
    omega
  · rw [hperiod] at hback
    rw [← hone, Nat.zero_add, hback, hself] at hone'
    exact hone' s.span_self
  · rw [hperiod] at hback
    rw [Nat.zero_add, hback, hself, s.span_self] at htwo
    exact htwo' htwo.symm

/-- The half turns when the first of two points moves on. -/
def turnBefore (mask : Mask) (connectivity : Connectivity) (s : Position) (i j : ℕ) : ℤ :=
  let w := mask.walk connectivity s
  halfTurns ((w i).span (w j)) ((w (i + 1)).span (w j))

/-- The half turns when the second of two points moves on. -/
def turnBehind (mask : Mask) (connectivity : Connectivity) (s : Position) (i j : ℕ) : ℤ :=
  let w := mask.walk connectivity s
  halfTurns ((w i).span (w j)) ((w i).span (w (j + 1)))

/-- The bend of the polygon after so many steps. -/
def bendAt (mask : Mask) (connectivity : Connectivity) (s : Position) (i : ℕ) : ℤ :=
  let w := mask.walk connectivity s
  Side.bend (w i).side (w (i + 1)).side (w (i + 2)).side

theorem bendAt_eq (mask : Mask) (connectivity : Connectivity) (s : Position) (i : ℕ) :
    mask.bendAt connectivity s i = mask.turnBehind connectivity s i (i + 1) +
      mask.turnBefore connectivity s i (i + 2) := by
  simp only [bendAt, turnBehind, turnBefore, Side.bend, span_walk_add_two, span_walk_succ,
    span_walk_succ mask connectivity s (i + 1)]

/-- It does not matter which of two points moves on first. -/
theorem turnBefore_add_turnBehind (connectivity : Connectivity) (h : mask.IsBoundary s)
    (hij : i + 1 < j) (hj : j < mask.period connectivity s)
    (hclosed : 0 < i ∨ j + 1 < mask.period connectivity s) :
    mask.turnBefore connectivity s i j + mask.turnBehind connectivity s (i + 1) j =
      mask.turnBehind connectivity s i j + mask.turnBefore connectivity s i (j + 1) := by
  have hlast (k : ℕ) (hk : 0 < k) (hkj : k ≤ j) :
      mask.walk connectivity s k ≠ mask.walk connectivity s (j + 1) := by
    rcases Nat.lt_or_ge (j + 1) (mask.period connectivity s) with hlt | hge
    · exact walk_ne_walk (by omega) hlt
    · rw [show j + 1 = mask.period connectivity s by omega, walk_period]
      exact walk_ne_self hk (by omega)
  have hfirst : mask.walk connectivity s i ≠ mask.walk connectivity s (j + 1) := by
    rcases Nat.eq_zero_or_pos i with rfl | hpos
    · exact walk_ne_walk (by omega) (by omega)
    · exact hlast i hpos (by omega)
  have hsquare := halfTurns_span connectivity (isBoundary_walk connectivity h i)
    (isBoundary_walk connectivity h j)
  simp only [← walk_succ] at hsquare
  exact hsquare (walk_ne_walk (by omega) hj) hfirst (walk_ne_walk hij hj)
    (hlast (i + 1) (by omega) (by omega))

/-! ## From the topmost side -/

/-- A side that lies above all others of its circuit, or as high as them and to the left. -/
structure IsTopmost (mask : Mask) (connectivity : Connectivity) (e : Position) : Prop where
  isBoundary : mask.IsBoundary e
  lower_span : ∀ t ∈ mask.circuit connectivity e, t ≠ e → lower (e.span t) = 1

theorem exists_isTopmost (connectivity : Connectivity) (h : mask.IsBoundary s) :
    ∃ e, mask.IsTopmost connectivity e ∧ e ∈ mask.circuit connectivity s := by
  let height := fun t : Position ↦ toLex (t.middle.2, t.middle.1)
  obtain ⟨e, he, hleast⟩ := exists_min_image (mask.circuit connectivity s).toFinset height
    ⟨s, List.mem_toFinset.2 (self_mem_circuit h)⟩
  rw [List.mem_toFinset] at he
  have hb := isBoundary_of_mem_circuit h he
  refine ⟨e, ⟨hb, fun t ht hne ↦ if_pos ?_⟩, he⟩
  have hle := hleast t (List.mem_toFinset.2 (mem_circuit_trans h he ht))
  have hspan : e.span t ≠ 0 := span_ne_zero hb (isBoundary_of_mem_circuit hb ht) hne.symm
  rw [Prod.Lex.toLex_le_toLex] at hle
  simp only [Position.span, ne_eq, Prod.ext_iff, Prod.fst_sub, Prod.snd_sub, Prod.fst_zero,
    Prod.snd_zero] at hle hspan ⊢
  omega

namespace IsTopmost

theorem lower_span_walk (h : mask.IsTopmost connectivity e) (hi : 0 < i)
    (hlt : i < mask.period connectivity e) :
    lower (e.span (mask.walk connectivity e i)) = 1 ∧
      lower ((mask.walk connectivity e i).span e) = 0 := by
  have hne : mask.walk connectivity e i ≠ e := walk_ne_self hi hlt
  have hlower := h.lower_span _ (walk_mem_circuit h.isBoundary i) hne
  have hspan := span_ne_zero h.isBoundary (isBoundary_walk connectivity h.isBoundary i) hne.symm
  refine ⟨hlower, ?_⟩
  rw [← Position.neg_span, lower_neg hspan, hlower]
  rfl

/-- Seen from the topmost point all others lie in one half-plane. So nothing but the turns at this
point itself remains. -/
theorem sum_bendAt_eq (h : mask.IsTopmost connectivity e) {k : ℕ}
    (hk : mask.period connectivity e = k + 3) :
    ∑ i ∈ range (k + 3), mask.bendAt connectivity e i =
      mask.turnBefore connectivity e 0 (k + 2) + mask.turnBehind connectivity e 1 (k + 2) +
        mask.bendAt connectivity e (k + 2) := by
  have hself : mask.walk connectivity e 0 = e := rfl
  have hclosed : mask.walk connectivity e (k + 3) = e := hk ▸ mask.walk_period connectivity e
  have hfirst (i : ℕ) (hi : i ∈ range (k + 1)) :
      mask.turnBehind connectivity e 0 (i + 1) = 0 := by
    have hlt := mem_range.1 hi
    apply halfTurns_of_lower_eq
    rw [hself, (h.lower_span_walk (by omega) (by omega)).1,
      (h.lower_span_walk (by omega) (by omega)).1]
  have hlast (i : ℕ) (hpos : 0 < i) (hle : i ≤ k + 1) :
      mask.turnBefore connectivity e i (k + 3) = 0 := by
    apply halfTurns_of_lower_eq
    rw [hclosed, (h.lower_span_walk (by omega) (by omega)).2,
      (h.lower_span_walk (by omega) (by omega)).2]
  have hdiagonal : ∑ i ∈ range (k + 1), mask.bendAt connectivity e i =
      ∑ i ∈ range (k + 1), mask.turnBefore connectivity e i (k + 2) := by
    have hsum := sum_diagonal (m := k + 1) fun i j hij hj ↦
      turnBefore_add_turnBehind connectivity h.isBoundary hij (by omega)
        (.inr (by omega))
    rw [sum_eq_zero hfirst, zero_add] at hsum
    simpa only [bendAt_eq] using hsum
  have hrow : ∑ i ∈ Ico 1 (k + 1), mask.turnBefore connectivity e i (k + 2) +
      mask.turnBehind connectivity e (k + 1) (k + 2) =
        mask.turnBehind connectivity e 1 (k + 2) := by
    have hsum := sum_Ico_row (Nat.le_add_left 1 k) fun i hi hik ↦
      turnBefore_add_turnBehind connectivity (j := k + 2) h.isBoundary
        (by omega) (by omega) (.inl hi)
    rwa [sum_eq_zero (fun i hi ↦ hlast i (mem_Ico.1 hi).1 (mem_Ico.1 hi).2.le), add_zero] at hsum
  have hhead : ∑ i ∈ range (k + 1), mask.turnBefore connectivity e i (k + 2) =
      mask.turnBefore connectivity e 0 (k + 2) +
        ∑ i ∈ Ico 1 (k + 1), mask.turnBefore connectivity e i (k + 2) := by
    rw [range_eq_Ico, sum_eq_sum_Ico_succ_bot (Nat.succ_pos k)]
  calc
    _ = ∑ i ∈ range (k + 1), mask.bendAt connectivity e i + mask.bendAt connectivity e (k + 1) +
        mask.bendAt connectivity e (k + 2) := by rw [sum_range_succ, sum_range_succ]
    _ = _ := by
      rw [hdiagonal, hhead, bendAt_eq mask connectivity e (k + 1),
        hlast (k + 1) (Nat.succ_pos k) le_rfl]
      linarith

/-- The polygon through the middles turns fully, clockwise if its topmost side is a top side. -/
theorem sum_bendAt (h : mask.IsTopmost connectivity e) : e.side.isHorizontal = true ∧
    ∑ i ∈ range (mask.period connectivity e), mask.bendAt connectivity e i =
      if e.side = .top then 2 else -2 := by
  obtain ⟨k, hk⟩ : ∃ k, mask.period connectivity e = k + 3 :=
    ⟨_, (Nat.sub_add_cancel (three_le_period h.isBoundary)).symm⟩
  have hself : mask.walk connectivity e 0 = e := rfl
  have hclosed : mask.walk connectivity e (k + 3) = e := hk ▸ mask.walk_period connectivity e
  have hclosed' : mask.walk connectivity e (k + 4) = mask.walk connectivity e 1 := by
    rw [← mask.walk_period_add connectivity e 1, hk]
  have hbefore := mask.span_walk_succ connectivity e (k + 2)
  have haround := mask.span_walk_add_two connectivity e (k + 2)
  have hbehind := mask.span_walk_succ connectivity e 0
  have hbefore' := mask.side_walk_ne_opposite connectivity e (k + 2)
  have hbehind' := mask.side_walk_ne_opposite connectivity e 0
  rw [hclosed] at hbefore haround hbefore'
  rw [hclosed'] at haround
  rw [hself, Nat.zero_add] at hbehind hbehind'
  have hlower := (h.lower_span_walk (i := k + 2) (by omega) (by omega)).1
  have hlower' := (h.lower_span_walk (i := 1) (by omega) (by omega)).1
  rw [← Position.neg_span, hbefore] at hlower
  rw [hbehind] at hlower'
  obtain ⟨hhorizontal, hturns⟩ := Side.bend_topmost hbefore' hbehind' hlower hlower'
  refine ⟨hhorizontal, ?_⟩
  rw [hk, h.sum_bendAt_eq hk, ← hturns, bendAt, hclosed, hclosed', turnBefore, turnBehind, hself,
    hclosed, ← hbefore, ← haround, ← hbehind, Position.neg_span, Position.neg_span,
    Position.neg_span]

end IsTopmost

/-- The quarter turns clockwise of the step from a side. -/
def quarters (mask : Mask) (connectivity : Connectivity) (s : Position) : ℤ :=
  (mask.chooseTurn connectivity s).quarters

theorem four_mul_bendAt (mask : Mask) (connectivity : Connectivity) (s : Position) (i : ℕ) :
    let w := mask.walk connectivity s
    let phase := fun s : Position ↦ s.side.phase (mask.chooseTurn connectivity s)
    4 * mask.bendAt connectivity s i = mask.quarters connectivity (w i) +
      mask.quarters connectivity (w (i + 1)) + phase (w i) - phase (w (i + 1)) := by
  have hbend := (mask.walk connectivity s i).side.four_mul_bend
    (mask.chooseTurn connectivity (mask.walk connectivity s i))
    (mask.chooseTurn connectivity (mask.walk connectivity s (i + 1)))
  simp only [bendAt, quarters, walk_succ] at hbend ⊢
  exact hbend

/-- Every second quarter of the turns of a circuit is a bend of the polygon. -/
theorem sum_quarters_walk (mask : Mask) (connectivity : Connectivity) (s : Position) :
    ∑ i ∈ range (mask.period connectivity s),
        mask.quarters connectivity (mask.walk connectivity s i) =
      2 * ∑ i ∈ range (mask.period connectivity s), mask.bendAt connectivity s i := by
  have hshift (g : Position → ℤ) := sum_range_succ_of_periodic
    (g := fun i ↦ g (mask.walk connectivity s i)) (congrArg g (mask.walk_period connectivity s))
  have hquarters := hshift (mask.quarters connectivity)
  have hphase := hshift fun s ↦ s.side.phase (mask.chooseTurn connectivity s)
  have hsum := congrArg₂ (· + ·) hquarters hphase
  have hbend := sum_congr rfl fun i (_ : i ∈ range (mask.period connectivity s)) ↦
    mask.four_mul_bendAt connectivity s i
  simp only [← mul_sum, sum_add_distrib, sum_sub_distrib] at hbend hsum
  linarith

theorem sum_map_circuit (mask : Mask) (connectivity : Connectivity) (s : Position)
    (g : Position → ℤ) : ((mask.circuit connectivity s).map g).sum =
      ∑ i ∈ range (mask.period connectivity s), g (mask.walk connectivity s i) := by
  rw [← sum_range_succ_of_periodic (g := fun i ↦ g (mask.walk connectivity s i))
    (congrArg g (mask.walk_period connectivity s)), circuit, List.map_map]
  rfl

/-- From another side of it a circuit is the same up to its beginning. -/
theorem circuit_perm (h : mask.IsBoundary s) (ht : t ∈ mask.circuit connectivity s) :
    (mask.circuit connectivity t).Perm (mask.circuit connectivity s) := by
  have htb := isBoundary_of_mem_circuit h ht
  rw [List.perm_ext_iff_of_nodup (nodup_circuit htb) (nodup_circuit h)]
  intro u
  exact ⟨mem_circuit_trans h ht, mem_circuit_trans htb (mem_circuit_symm h ht)⟩

theorem IsTopmost.sum_quarters_circuit (h : mask.IsTopmost connectivity e) :
    e.side.isHorizontal = true ∧ ((mask.circuit connectivity e).map
      (mask.quarters connectivity)).sum = if e.side = .top then 4 else -4 := by
  obtain ⟨hhorizontal, hsum⟩ := h.sum_bendAt
  refine ⟨hhorizontal, ?_⟩
  rw [sum_map_circuit, sum_quarters_walk, hsum]
  split <;> rfl

theorem winding_perm {sides sides' : List Position} (h : sides.Perm sides') (p : Pixel) :
    winding sides p = winding sides' p := by
  unfold winding leftsUpTo rightsBefore
  rw [h.countP_eq, h.countP_eq]

/-- The row above the topmost side of a circuit is not enclosed. -/
theorem IsTopmost.winding_eq_zero (h : mask.IsTopmost connectivity e) {p : Pixel}
    (hp : 2 * p.2 < e.middle.2) : winding (mask.circuit connectivity e) p = 0 := by
  apply ContourTracing.winding_eq_zero
  intro t ht hv hy
  have hmiddle : t.middle.2 = 2 * p.2 := by
    rw [← hy]
    rcases Position.side_eq_of_isVertical hv with hside | hside <;>
      simp [Position.middle, hside, Side.outward]
  have hne : t ≠ e := fun heq ↦ by
    rw [heq] at hmiddle
    omega
  have hlower := h.lower_span t ht hne
  simp only [lower, Position.span, Prod.snd_sub] at hlower
  omega

/-- A circuit makes one full turn, clockwise around an object and counterclockwise around a hole. -/
theorem IsStart.sum_quarters (he : mask.IsStart connectivity e)
    (hs : s ∈ mask.circuit connectivity e) :
    ((mask.circuit connectivity s).map (mask.quarters connectivity)).sum = 4 * e.orientation := by
  obtain ⟨t, htop, ht⟩ := exists_isTopmost connectivity he.isBoundary
  have hte := circuit_perm he.isBoundary ht
  have hse := circuit_perm he.isBoundary hs
  obtain ⟨hhorizontal, hsum⟩ := htop.sum_quarters_circuit
  rw [((hse.trans hte.symm).map _).sum_eq, hsum]
  -- the pixel above the topmost side lies outside
  have hzero (p : Pixel) (hp : 2 * p.2 < t.middle.2) :
      winding (mask.circuit connectivity e) p = 0 := by
    rw [← winding_perm hte]
    exact htop.winding_eq_zero hp
  cases hside : t.side with
  | left | right => simp [hside, Side.isHorizontal, Side.isVertical] at hhorizontal
  | top =>
    have hout := he.winding_across_of_mem ht
    rw [hzero _ (by simp [Position.across, Position.middle, hside, Side.outward]; omega)] at hout
    by_cases hleft : e.side = .left
    · simp [Position.orientation, hleft]
    · simp [hleft] at hout
  | bottom =>
    have hout := he.winding_pixel_of_mem ht
    rw [hzero _ (by simp [Position.pixel, Position.middle, hside, Side.outward])] at hout
    by_cases hleft : e.side = .left
    · simp [hleft] at hout
    · simp [Position.orientation, hleft]

end Mask

end ContourTracing
