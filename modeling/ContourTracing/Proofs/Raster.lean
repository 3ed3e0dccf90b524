import Mathlib.Order.WellFounded
import ContourTracing.Proofs.Plane

/-!
# Raster order

The numbers of pixels grow row by row and within a row from left to right, and so do the slots of
vertical sides. Two boundary sides of one row are ordered by their edges, the columns that begin
at them. The run edges are the vertical boundary sides, so that the search for the next one finds
the first vertical boundary side after the current slot.
-/

namespace ContourTracing

/-- The first pixel of a set row by row, each row from left to right. -/
def IsRasterFirst (p : Pixel) (K : Set Pixel) : Prop :=
  p ∈ K ∧ ∀ q ∈ K, p.2 < q.2 ∨ p.2 = q.2 ∧ p.1 ≤ q.1

theorem IsRasterFirst.unique {p q : Pixel} {K : Set Pixel} (hp : IsRasterFirst p K)
    (hq : IsRasterFirst q K) : p = q := by
  have h := hp.2 q hq.1
  have h' := hq.2 p hp.1
  exact Prod.ext (by omega) (by omega)

namespace Position

/-- The column that begins at a vertical side. -/
def edge (s : Position) : ℤ :=
  if s.side = .right then s.x + 1 else s.x

/-- The pixel to the right of a vertical side. -/
def past (s : Position) : Pixel :=
  (s.edge, s.y)

theorem edge_left {s : Position} (h : s.side = .left) : s.edge = s.x := by
  simp [edge, h]

theorem edge_right {s : Position} (h : s.side = .right) : s.edge = s.x + 1 := by
  simp [edge, h]

theorem past_left {s : Position} (h : s.side = .left) : s.past = s.pixel := by
  simp [past, pixel, edge, h]

theorem past_right {s : Position} (h : s.side = .right) : s.past = s.across := by
  simp [past, across, edge, Side.outward, h]

theorem side_eq_of_isVertical {s : Position} (h : s.side.isVertical = true) :
    s.side = .left ∨ s.side = .right := by
  cases hside : s.side <;> simp_all [Side.isVertical]

end Position

namespace Mask

variable {mask : Mask} {s t e : Position} {p q : Pixel}

/-! ## Numbers of pixels -/

theorem index_lt_size (h : mask.Contains p.1 p.2) : mask.index p.1 p.2 < mask.size := by
  obtain ⟨hx, hw, hy, hh⟩ := h
  have hrow : p.2.toNat + 1 ≤ mask.height := by omega
  have hmul := Nat.mul_le_mul_right mask.width hrow
  have hcolumn : p.1.toNat < mask.width := by omega
  rw [Nat.add_mul, Nat.one_mul] at hmul
  rw [size, Nat.mul_comm mask.width]
  unfold index
  omega

theorem index_lt_index_of_row (hp : mask.Contains p.1 p.2) (hq : mask.Contains q.1 q.2)
    (h : p.2 < q.2) : mask.index p.1 p.2 < mask.index q.1 q.2 := by
  obtain ⟨hx, hw, hy, -⟩ := hp
  obtain ⟨-, -, hy', -⟩ := hq
  have hrow : p.2.toNat + 1 ≤ q.2.toNat := by omega
  have hmul := Nat.mul_le_mul_right mask.width hrow
  have hcolumn : p.1.toNat < mask.width := by omega
  rw [Nat.add_mul, Nat.one_mul] at hmul
  unfold index
  omega

theorem index_le_iff (hp : mask.Contains p.1 p.2) (hq : mask.Contains q.1 q.2) :
    mask.index p.1 p.2 ≤ mask.index q.1 q.2 ↔ p.2 < q.2 ∨ p.2 = q.2 ∧ p.1 ≤ q.1 := by
  obtain ⟨hx, -, -, -⟩ := id hp
  obtain ⟨hx', -, -, -⟩ := id hq
  rcases lt_trichotomy p.2 q.2 with h | h | h
  · have := index_lt_index_of_row hp hq h
    omega
  · unfold index
    rw [h]
    omega
  · have := index_lt_index_of_row hq hp h
    omega

theorem index_injOn (mask : Mask) :
    Set.InjOn (fun p : Pixel ↦ mask.index p.1 p.2) {p | mask.Contains p.1 p.2} := by
  intro p hp q hq h
  have hle := (index_le_iff hp hq).1 h.le
  have hge := (index_le_iff hq hp).1 h.ge
  exact Prod.ext (by omega) (by omega)

theorem exists_index_eq {n : ℕ} (h : n < mask.size) :
    ∃ p : Pixel, mask.Contains p.1 p.2 ∧ mask.index p.1 p.2 = n := by
  have hpos : 0 < mask.width := Nat.pos_of_ne_zero fun hzero ↦ by simp [size, hzero] at h
  have hrow : n / mask.width < mask.height := Nat.div_lt_of_lt_mul h
  have hcolumn : n % mask.width < mask.width := Nat.mod_lt n hpos
  refine ⟨((n % mask.width : ℕ), (n / mask.width : ℕ)), ⟨Int.natCast_nonneg _,
    Int.ofNat_lt.2 hcolumn, Int.natCast_nonneg _, Int.ofNat_lt.2 hrow⟩, ?_⟩
  simpa only [index, Int.toNat_natCast] using Nat.div_add_mod' n mask.width

theorem index_div_width (h : mask.Contains p.1 p.2) :
    mask.index p.1 p.2 / mask.width = p.2.toNat := by
  obtain ⟨hx, hw, -, -⟩ := h
  have hcolumn : p.1.toNat < mask.width := by omega
  rw [index, Nat.mul_comm, Nat.mul_add_div (by omega), Nat.div_eq_of_lt hcolumn, Nat.add_zero]

theorem index_mod_width (h : mask.Contains p.1 p.2) :
    mask.index p.1 p.2 % mask.width = p.1.toNat := by
  obtain ⟨hx, hw, -, -⟩ := h
  have hcolumn : p.1.toNat < mask.width := by omega
  rw [index, Nat.mul_comm, Nat.mul_add_mod, Nat.mod_eq_of_lt hcolumn]

/-- The number at which the next row begins tells the pixels of a row from later ones. -/
theorem index_lt_rowEnd_iff (hp : mask.Contains p.1 p.2) (hq : mask.Contains q.1 q.2) :
    mask.index q.1 q.2 < (mask.index p.1 p.2 / mask.width + 1) * mask.width ↔ q.2 ≤ p.2 := by
  have hpos : 0 < mask.width := by
    have hw := hp.1.trans_lt hp.2.1
    omega
  rw [← Nat.div_lt_iff_lt_mul hpos, index_div_width hp, index_div_width hq]
  have hrow := hp.2.2.1
  have hrow' := hq.2.2.1
  omega

theorem rowEnd_le_size (h : mask.Contains p.1 p.2) :
    (mask.index p.1 p.2 / mask.width + 1) * mask.width ≤ mask.size := by
  obtain ⟨-, -, hy, hh⟩ := id h
  rw [index_div_width h, size, Nat.mul_comm mask.width]
  exact Nat.mul_le_mul_right mask.width (by omega)

theorem bit_index (h : mask.Contains p.1 p.2) :
    mask.bit (mask.index p.1 p.2) = mask.isSet p.1 p.2 := by
  rw [isSet, if_pos h]

/-- A nonempty set of pixels of the rectangle has a first one. -/
theorem exists_isRasterFirst {K : Set Pixel} (hne : K.Nonempty)
    (hK : ∀ p ∈ K, mask.Contains p.1 p.2) : ∃ p, IsRasterFirst p K := by
  let number := fun p : Pixel ↦ mask.index p.1 p.2
  have hmem := Function.argminOn_mem number K hne
  refine ⟨Function.argminOn number K hne, hmem, ?_⟩
  intro q hq
  exact (index_le_iff (hK _ hmem) (hK q hq)).1 (Function.argminOn_le number K hq)

theorem isSet_natCast {x y : ℕ} (hx : x < mask.width) (hy : y < mask.height) :
    mask.isSet x y = mask.bit (y * mask.width + x) := by
  have h : mask.Contains x y := ⟨by omega, by omega, by omega, by omega⟩
  rw [isSet, if_pos h, index, Int.toNat_natCast, Int.toNat_natCast]

theorem isSet_left_of_natCast {x y : ℕ} (hx : x < mask.width) (hy : y < mask.height) :
    mask.isSet (x + -1) y = (x != 0 && mask.bit (y * mask.width + x - 1)) := by
  rcases Nat.eq_zero_or_pos x with rfl | hpos
  · rw [isSet_of_not_contains]
    · rfl
    · rintro ⟨hneg, -⟩
      omega
  · have hcast : (x : ℤ) + -1 = ((x - 1 : ℕ) : ℤ) := by omega
    have hne : (x != 0) = true := by simp; omega
    have hindex : y * mask.width + (x - 1) = y * mask.width + x - 1 := by omega
    rw [hcast, isSet_natCast (by omega) hy, hne, Bool.true_and, hindex]

theorem isSet_right_of_natCast {x y : ℕ} (hx : x < mask.width) (hy : y < mask.height) :
    mask.isSet (x + 1) y = (x + 1 != mask.width && mask.bit (y * mask.width + x + 1)) := by
  by_cases hend : x + 1 = mask.width
  · rw [isSet_of_not_contains]
    · simp [hend]
    · rintro ⟨-, hlt, -⟩
      omega
  · have hcast : (x : ℤ) + 1 = ((x + 1 : ℕ) : ℤ) := by omega
    have hne : (x + 1 != mask.width) = true := by simpa using hend
    rw [hcast, isSet_natCast (by omega) hy, hne, Bool.true_and, Nat.add_assoc]

/-! ## Slots of vertical sides -/

theorem slot_lt_iff (hs : mask.Contains s.x s.y) (ht : mask.Contains t.x t.y) :
    mask.slot s < mask.slot t ↔ s.y < t.y ∨ s.y = t.y ∧ s.x + s.edge < t.x + t.edge := by
  obtain ⟨hx, -, -, -⟩ := id hs
  obtain ⟨hx', -, -, -⟩ := id ht
  unfold slot Position.edge
  rcases lt_trichotomy s.y t.y with h | h | h
  · have := index_lt_index_of_row (p := s.pixel) (q := t.pixel) hs ht h
    simp only [Position.pixel] at this
    split <;> split <;> omega
  · unfold index
    rw [h]
    split <;> split <;> omega
  · have := index_lt_index_of_row (p := t.pixel) (q := s.pixel) ht hs h
    simp only [Position.pixel] at this
    split <;> split <;> omega

/-- The slot of a boundary side is the slot of a pixel of the rectangle. -/
theorem contains_of_isBoundary (h : mask.IsBoundary s) : mask.Contains s.x s.y :=
  mask.contains_of_isSet h.1

theorem slot_lt_of_isBoundary (h : mask.IsBoundary s) : mask.slot s < 2 * mask.size := by
  have := index_lt_size (p := s.pixel) (contains_of_isBoundary h)
  unfold slot
  simp only [Position.pixel] at this
  split <;> omega

theorem eq_of_slot_eq (hs : mask.IsBoundary s) (ht : mask.IsBoundary t)
    (hsv : s.side.isVertical = true) (htv : t.side.isVertical = true)
    (h : mask.slot s = mask.slot t) : s = t := by
  rw [← mask.atSlot_slot (contains_of_isBoundary hs) hsv,
    ← mask.atSlot_slot (contains_of_isBoundary ht) htv, h]

/-- A left and a right side at one edge are not both boundary sides. -/
theorem eq_of_edge_eq (hs : mask.IsBoundary s) (ht : mask.IsBoundary t)
    (hsv : s.side.isVertical = true) (htv : t.side.isVertical = true)
    (hy : s.y = t.y) (hedge : s.edge = t.edge) : s = t := by
  obtain ⟨x, y, side⟩ := s
  obtain ⟨x', y', side'⟩ := t
  have hside := Position.side_eq_of_isVertical hsv
  have hside' := Position.side_eq_of_isVertical htv
  simp only at hside hside' hy
  subst hy
  rcases hside with rfl | rfl <;> rcases hside' with rfl | rfl <;>
    simp_all [IsBoundary, Position.across, Side.outward, Position.edge]

theorem slot_le_iff (hs : mask.IsBoundary s) (ht : mask.IsBoundary t)
    (hsv : s.side.isVertical = true) (htv : t.side.isVertical = true) :
    mask.slot s ≤ mask.slot t ↔ s.y < t.y ∨ s.y = t.y ∧ s.edge ≤ t.edge := by
  have hlt := slot_lt_iff (contains_of_isBoundary ht) (contains_of_isBoundary hs)
  by_cases h : s.y = t.y ∧ s.edge = t.edge
  · rw [eq_of_edge_eq hs ht hsv htv h.1 h.2]
    simp
  · have hs' : s.edge = s.x ∨ s.edge = s.x + 1 := by unfold Position.edge; split <;> simp
    have ht' : t.edge = t.x ∨ t.edge = t.x + 1 := by unfold Position.edge; split <;> simp
    omega

/-! ## Run edges -/

theorem contains_atSlot {n : ℕ} (h : n < 2 * mask.size) :
    mask.Contains (mask.atSlot n).x (mask.atSlot n).y := by
  have hindex : n / 2 < mask.width * mask.height := by
    unfold size at h
    omega
  have hpos : 0 < mask.width := Nat.pos_of_ne_zero fun hzero ↦ by simp [hzero] at hindex
  exact ⟨Int.natCast_nonneg _, Int.ofNat_lt.2 (Nat.mod_lt _ hpos), Int.natCast_nonneg _,
    Int.ofNat_lt.2 (Nat.div_lt_of_lt_mul hindex)⟩

@[simp]
theorem isVertical_atSlot (n : ℕ) : (mask.atSlot n).side.isVertical = true := by
  unfold atSlot
  split <;> rfl

theorem isRunEdge_iff {n : ℕ} (h : n < 2 * mask.size) :
    mask.isRunEdge n = true ↔ mask.IsBoundary (mask.atSlot n) := by
  have hindex : n / 2 < mask.height * mask.width := by
    rw [Nat.mul_comm]
    unfold size at h
    omega
  have hpos : 0 < mask.width := by
    rcases Nat.eq_zero_or_pos mask.width with h0 | h0
    · simp [h0] at hindex
    · exact h0
  have hrow : n / 2 / mask.width < mask.height := (Nat.div_lt_iff_lt_mul hpos).2 hindex
  have hcolumn : n / 2 % mask.width < mask.width := Nat.mod_lt _ hpos
  have hset := isSet_natCast hcolumn hrow
  have hleft := isSet_left_of_natCast hcolumn hrow
  have hright := isSet_right_of_natCast hcolumn hrow
  rw [Nat.div_add_mod'] at hset hleft hright
  simp only [isRunEdge, atSlot, IsBoundary, hset]
  split
  · simp only [Position.across, Side.outward, Int.add_zero, hleft]
    cases mask.bit (n / 2) <;> cases mask.bit (n / 2 - 1) <;> simp
  · simp only [Position.across, Side.outward, Int.add_zero, hright]
    cases mask.bit (n / 2) <;> cases mask.bit (n / 2 + 1) <;> simp

/-- The first slot of a search that goes on after a position. -/
def slotAfter (mask : Mask) : Option Position → ℕ
  | none => 0
  | some s => mask.slot s + 1

theorem isRunEdge_of_bit_eq_false {n : ℕ} (h : mask.bit (n / 2) = false) :
    mask.isRunEdge n = false := by
  rw [isRunEdge, h, Bool.false_and]

theorem isRunEdge_two_mul (mask : Mask) (i : ℕ) : mask.isRunEdge (2 * i) =
    (mask.bit i && (i % mask.width == 0 || !mask.bit (i - 1))) := by
  have hhalf : 2 * i / 2 = i := by omega
  have heven : 2 * i % 2 = 0 := by omega
  simp only [isRunEdge, hhalf, heven, if_true]

theorem isRunEdge_two_mul_add_one (mask : Mask) (i : ℕ) : mask.isRunEdge (2 * i + 1) =
    (mask.bit i && (i % mask.width + 1 == mask.width || !mask.bit (i + 1))) := by
  have hhalf : (2 * i + 1) / 2 = i := by omega
  have hodd : ¬ (2 * i + 1) % 2 = 0 := by omega
  simp only [isRunEdge, hhalf, if_neg hodd]

theorem bit_eq_false_of_size_le {i : ℕ} (h : mask.size ≤ i) : mask.bit i = false := by
  have hsize : ¬ i < mask.bits.size := by
    rw [mask.size_bits]
    exact not_lt.2 h
  simp [bit, Array.getD_eq_getD_getElem?, hsize]

/-- The column of a pixel whose number lies between the ends of a row. -/
theorem mod_width_eq {i row : ℕ} (hle : row * mask.width ≤ i) (hlt : i < (row + 1) * mask.width) :
    i % mask.width = i - row * mask.width := by
  have hsplit : i = i - row * mask.width + row * mask.width := by omega
  have hcolumn : i - row * mask.width < mask.width := by
    rw [Nat.add_mul, Nat.one_mul] at hlt
    omega
  conv_lhs => rw [hsplit, Nat.add_mul_mod_self_right, Nat.mod_eq_of_lt hcolumn]

/-- Where no run goes on, the next run edge is the left side of the next set pixel. -/
theorem runStartFrom_eq {i start : ℕ} (hstart : start ≤ 2 * i)
    (hnone : ∀ n, start ≤ n → n < 2 * i → mask.isRunEdge n = false)
    (hrow : mask.bit i = true → i % mask.width = 0 ∨ mask.bit (i - 1) = false) :
    mask.runStartFrom i =
      (Search.firstOf mask.isRunEdge start (2 * mask.size - start)).map mask.atSlot := by
  rw [runStartFrom, Search.first_eq_firstOf]
  cases hfirst : Search.firstOf mask.bit i (mask.size - i) with
  | none =>
    rw [Search.firstOf_eq_none_iff] at hfirst
    have hmiss : Search.firstOf mask.isRunEdge start (2 * mask.size - start) = none := by
      rw [Search.firstOf_eq_none_iff]
      intro n hn hlt
      by_cases hi : n < 2 * i
      · exact hnone n hn hi
      · exact isRunEdge_of_bit_eq_false (hfirst (n / 2) (by omega) (by omega))
    rw [hmiss, Option.map_none, Option.map_none]
  | some found =>
    obtain ⟨hle, hlt, hset, hunset⟩ := Search.firstOf_eq_some_iff.1 hfirst
    have hedge : mask.isRunEdge (2 * found) = true := by
      rw [isRunEdge_two_mul, hset, Bool.true_and, Bool.or_eq_true, beq_iff_eq, Bool.not_eq_true']
      rcases Nat.eq_or_lt_of_le hle with rfl | hbehind
      · exact hrow hset
      · exact .inr (hunset (found - 1) (by omega) (by omega))
    have hhit : Search.firstOf mask.isRunEdge start (2 * mask.size - start) =
        some (2 * found) := by
      refine Search.firstOf_eq_some_iff.2 ⟨by omega, by omega, hedge, fun n hn hless ↦ ?_⟩
      by_cases hi : n < 2 * i
      · exact hnone n hn hi
      · exact isRunEdge_of_bit_eq_false (hunset (n / 2) (by omega) (by omega))
    rw [hhit, Option.map_some, Option.map_some]

/-- From a set pixel the search for an unset one stops behind the last pixel of the run. -/
theorem exists_stop_of_bit {i : ℕ} (hset : mask.bit i = true) :
    let rowEnd := (i / mask.width + 1) * mask.width
    let stop := (Search.first (fun i ↦ !mask.bit i) (i + 1) rowEnd).getD rowEnd
    i < stop ∧ stop ≤ rowEnd ∧ (∀ k, i ≤ k → k < stop → mask.bit k = true) ∧
      (stop = rowEnd ∨ mask.bit stop = false) := by
  intro rowEnd stop
  have hsize : i < mask.size := by
    by_contra hout
    rw [bit_eq_false_of_size_le (not_lt.1 hout)] at hset
    cases hset
  have hpos : 0 < mask.width := Nat.pos_of_ne_zero fun hzero ↦ by simp [size, hzero] at hsize
  have hend : i < rowEnd := Nat.lt_mul_of_div_lt (Nat.lt_succ_self _) hpos
  have hself (k : ℕ) (h : i + 1 ≤ k → mask.bit k = true) (hk : i ≤ k) : mask.bit k = true := by
    rcases Nat.eq_or_lt_of_le hk with rfl | hlt
    · exact hset
    · exact h hlt
  simp only [stop]
  cases hfirst : Search.first (fun i ↦ !mask.bit i) (i + 1) rowEnd with
  | none =>
    rw [Search.first_eq_firstOf, Search.firstOf_eq_none_iff] at hfirst
    refine ⟨hend, le_rfl, fun k hk hlt ↦ hself k (fun hle ↦ ?_) hk, .inl rfl⟩
    simpa using hfirst k hle (by rw [Option.getD_none] at hlt; omega)
  | some found =>
    rw [Search.first_eq_firstOf, Search.firstOf_eq_some_iff] at hfirst
    obtain ⟨hle, hlt, hunset, hleast⟩ := hfirst
    refine ⟨hle, by rw [Option.getD_some]; omega, fun k hk hlt ↦ hself k (fun hle ↦ ?_) hk,
      .inr (by simpa using hunset)⟩
    simpa using hleast k hle hlt

/-- Within a run there are no run edges. -/
theorem isRunEdge_eq_false_of_run {i stop n : ℕ} (hle : stop ≤ (i / mask.width + 1) * mask.width)
    (hset : ∀ k, i ≤ k → k < stop → mask.bit k = true) (hn : 2 * i < n)
    (hlt : n < 2 * (stop - 1) + 1) : mask.isRunEdge n = false := by
  have hrow : i / mask.width * mask.width ≤ i := Nat.div_mul_le_self i mask.width
  have hcolumn (k : ℕ) (hk : i ≤ k) (hk' : k < stop) :
      k % mask.width = k - i / mask.width * mask.width :=
    mod_width_eq (hrow.trans hk) (hk'.trans_le hle)
  have hend : (i / mask.width + 1) * mask.width = i / mask.width * mask.width + mask.width := by
    rw [Nat.add_mul, Nat.one_mul]
  obtain ⟨k, rfl | rfl⟩ : ∃ k, n = 2 * k ∨ n = 2 * k + 1 := ⟨n / 2, by omega⟩
  · have hnext : k % mask.width ≠ 0 := by
      rw [hcolumn k (by omega) (by omega)]
      omega
    rw [isRunEdge_two_mul, hset (k - 1) (by omega) (by omega)]
    simp [hnext]
  · have hnext : k % mask.width + 1 ≠ mask.width := by
      rw [hcolumn k (by omega) (by omega)]
      omega
    rw [isRunEdge_two_mul_add_one, hset (k + 1) (by omega) (by omega)]
    simp [hnext]

/-- From a set pixel the next run edge is the right side of the last pixel of its run. -/
theorem firstOf_isRunEdge_of_run {i start stop : ℕ} (hlt : i < stop)
    (hle : stop ≤ (i / mask.width + 1) * mask.width)
    (hset : ∀ k, i ≤ k → k < stop → mask.bit k = true)
    (hend : stop = (i / mask.width + 1) * mask.width ∨ mask.bit stop = false)
    (hstart : 2 * i < start) (hstop : start ≤ 2 * (stop - 1) + 1) :
    Search.firstOf mask.isRunEdge start (2 * mask.size - start) = some (2 * (stop - 1) + 1) := by
  have hlast : mask.bit (stop - 1) = true := hset (stop - 1) (by omega) (by omega)
  have hsize : stop - 1 < mask.size := by
    by_contra hout
    rw [bit_eq_false_of_size_le (not_lt.1 hout)] at hlast
    cases hlast
  have hrow : i / mask.width * mask.width ≤ i := Nat.div_mul_le_self i mask.width
  have hcolumn : (stop - 1) % mask.width = stop - 1 - i / mask.width * mask.width :=
    mod_width_eq (by omega) (by omega)
  have hback : stop - 1 + 1 = stop := by omega
  rw [Search.firstOf_eq_some_iff]
  refine ⟨hstop, by omega, ?_, fun n hn hless ↦ ?_⟩
  · rw [isRunEdge_two_mul_add_one, hlast, Bool.true_and, Bool.or_eq_true, beq_iff_eq,
      Bool.not_eq_true', hback, hcolumn]
    apply hend.imp_left
    intro hrowEnd
    rw [Nat.add_mul, Nat.one_mul] at hrowEnd
    omega
  · exact isRunEdge_eq_false_of_run hle hset (by omega) hless

/-- The search from pixel to pixel comes to the first run edge after the current slot. -/
theorem nextRunEdge_eq (mask : Mask) (after : Option Position) :
    mask.nextRunEdge after = (Search.firstOf mask.isRunEdge (mask.slotAfter after)
      (2 * mask.size - mask.slotAfter after)).map mask.atSlot := by
  have hskip {i n : ℕ} (hunset : ¬ mask.bit i = true) (hn : 2 * i ≤ n) (hlt : n < 2 * (i + 1)) :
      mask.isRunEdge n = false := by
    have hhalf : n / 2 = i := by omega
    exact isRunEdge_of_bit_eq_false (by rwa [hhalf, ← Bool.not_eq_true])
  cases after with
  | none =>
    simp only [nextRunEdge, slotAfter]
    split
    · next hset =>
      have hedge : mask.isRunEdge 0 = true := by
        rw [show 0 = 2 * 0 from rfl, isRunEdge_two_mul, hset, Nat.zero_mod]
        rfl
      have hsize : 0 < mask.size := by
        by_contra hout
        rw [bit_eq_false_of_size_le (not_lt.1 hout)] at hset
        cases hset
      obtain ⟨count, hcount⟩ : ∃ count, 2 * mask.size - 0 = count + 1 :=
        ⟨2 * mask.size - 1, by omega⟩
      rw [hcount, Search.firstOf_of_hit count hedge, Option.map_some]
    · next hunset =>
      apply runStartFrom_eq (Nat.zero_le _)
      · exact fun n _ hlt ↦ hskip hunset (Nat.zero_le n) hlt
      · exact fun _ ↦ .inr (by simpa using hunset)
  | some s =>
    have hslot : mask.slotAfter (some s) =
        2 * mask.index s.x s.y + (if s.side = .right then 1 else 0) + 1 := rfl
    simp only [nextRunEdge]
    generalize mask.index s.x s.y = i at hslot ⊢
    split
    · next hset =>
      obtain ⟨hlt, hle, hrun, hend⟩ := exists_stop_of_bit hset
      generalize (Search.first (fun i ↦ !mask.bit i) (i + 1)
        ((i / mask.width + 1) * mask.width)).getD ((i / mask.width + 1) * mask.width) = stop at *
      by_cases hlast : s.side = .right ∧ stop = i + 1
      · rw [if_pos hlast]
        rw [if_pos hlast.1] at hslot
        apply runStartFrom_eq (by omega)
        · exact fun n hn hless ↦ absurd hless (by omega)
        · intro hnext
          rcases hend with hrowEnd | hunset
          · exact .inl (by rw [hrowEnd, Nat.mul_mod_left])
          · exact absurd hnext (by rw [hunset]; decide)
      · rw [if_neg hlast, firstOf_isRunEdge_of_run hlt hle hrun hend, Option.map_some]
        · omega
        · split at hslot <;> simp_all <;> omega
    · next hunset =>
      apply runStartFrom_eq (by split at hslot <;> omega)
      · exact fun n hn hless ↦ hskip hunset (by omega) hless
      · exact fun _ ↦ .inr (by simpa using hunset)

theorem nextRunEdge_eq_some {after : Option Position} (h : mask.nextRunEdge after = some e) :
    mask.IsBoundary e ∧ e.side.isVertical = true ∧ mask.slotAfter after ≤ mask.slot e ∧
      ∀ s, mask.IsBoundary s → s.side.isVertical = true → mask.slotAfter after ≤ mask.slot s →
        mask.slot e ≤ mask.slot s := by
  rw [nextRunEdge_eq, Option.map_eq_some_iff] at h
  obtain ⟨n, hn, rfl⟩ := h
  obtain ⟨hle, hlt, hhit, hleast⟩ := Search.firstOf_eq_some_iff.1 hn
  rw [slot_atSlot]
  refine ⟨(isRunEdge_iff (by omega)).1 hhit, isVertical_atSlot n, hle, ?_⟩
  intro s hs hv hs'
  by_contra hless
  have hsize := slot_lt_of_isBoundary hs
  have hmiss := hleast (mask.slot s) hs' (by omega)
  have hedge := (isRunEdge_iff hsize).2
  rw [mask.atSlot_slot (contains_of_isBoundary hs) hv, hmiss] at hedge
  exact absurd (hedge hs) (by simp)

theorem nextRunEdge_eq_none {after : Option Position} (h : mask.nextRunEdge after = none)
    (hs : mask.IsBoundary s) (hv : s.side.isVertical = true) :
    mask.slot s < mask.slotAfter after := by
  rw [nextRunEdge_eq, Option.map_eq_none_iff, Search.firstOf_eq_none_iff] at h
  by_contra hless
  have hsize := slot_lt_of_isBoundary hs
  have hmiss := h (mask.slot s) (by omega) (by omega)
  have hedge := (isRunEdge_iff hsize).2
  rw [mask.atSlot_slot (contains_of_isBoundary hs) hv, hmiss] at hedge
  exact absurd (hedge hs) (by simp)

end Mask

end ContourTracing
