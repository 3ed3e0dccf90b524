import ContourTracing.Proofs.Raster
import ContourTracing.Walk

/-!
# Checked reads of a mask

The walk and the searches compute the numbers of the elements that they read, and arrays of some
languages give something back for a negative number, too. Here the same computations are made over
the integers, and every read gives nothing unless the number is that of an element. From a pixel of
the mask they all succeed, with the results of the computations that make no such checks.
-/

namespace ContourTracing

/-- The number as an index of an array of the given size; no element is counted from the end. -/
def elementIndex? (size : ℕ) (number : ℤ) : Option ℕ :=
  if 0 ≤ number ∧ number < size then some number.toNat else none

theorem elementIndex?_natCast {size index : ℕ} (h : index < size) :
    elementIndex? size index = some index := by
  rw [elementIndex?, if_pos ⟨Int.natCast_nonneg _, Int.ofNat_lt.2 h⟩, Int.toNat_natCast]

/-- An access to an element that is there. -/
theorem map_elementIndex?_natCast {α : Type} {size index : ℕ} (h : index < size)
    (access : ℕ → α) : (elementIndex? size index).map access = some (access index) := by
  rw [elementIndex?_natCast h, Option.map_some]

/-! ## Searches -/

namespace Search

/-- All elements of a window. -/
def readWindow? (read : ℤ → Option Bool) (start : ℤ) : ℕ → Option (List Bool)
  | 0 => some []
  | count + 1 => do
    let first ← read start
    let rest ← readWindow? read (start + 1) count
    return first :: rest

/-- The number of the first hit of a range; every window is read to its end. -/
def checkedFirst? (read : ℤ → Option Bool) (start stop : ℤ) : Option (Option ℤ) :=
  if start < stop then do
    let finish := min (start + windowSize) stop
    let window ← readWindow? read start (finish - start).toNat
    match window.findIdx? id with
    | some offset => return some (start + offset)
    | none => checkedFirst? read finish stop
  else return none
termination_by (stop - start).toNat
decreasing_by
  have hwindow : (0 : ℤ) < windowSize := by decide
  omega

variable {read : ℤ → Option Bool} {hit : ℕ → Bool}

theorem readWindow?_eq {start count : ℕ}
    (h : ∀ index : ℕ, start ≤ index → index < start + count → read index = some (hit index)) :
    readWindow? read start count = some ((List.range' start count).map hit) := by
  induction count generalizing start with
  | zero => rfl
  | succ count ih =>
    have hrest := @ih (start + 1) fun index hle hlt ↦ h index (by omega) (by omega)
    rw [Nat.cast_succ] at hrest
    rw [readWindow?, h start le_rfl (by omega), hrest, List.range'_succ]
    rfl

theorem findIdx?_map_range' (hit : ℕ → Bool) (start count : ℕ) :
    (((List.range' start count).map hit).findIdx? id).map (start + ·) =
      firstOf hit start count := by
  induction count generalizing start with
  | zero => rfl
  | succ count ih =>
    rw [List.range'_succ, List.map_cons, List.findIdx?_cons, firstOf, id]
    split
    · rfl
    · rw [← ih, Option.map_map]
      congr 1
      funext offset
      exact (Nat.add_right_comm start 1 offset).symm

/-- If the elements of the range can be read, then the first hit is found. -/
theorem checkedFirst?_eq {start stop : ℕ}
    (h : ∀ index : ℕ, start ≤ index → index < stop → read index = some (hit index)) :
    checkedFirst? read start stop = some ((first hit start stop).map Nat.cast) := by
  -- The windows are cut off one by one, so the induction is on what remains of the range.
  induction hrest : stop - start using Nat.strong_induction_on generalizing start with
  | h rest ih =>
    rw [first_eq_firstOf, hrest]
    rw [checkedFirst?]
    split
    · next hlt =>
      have hlt := Int.ofNat_lt.1 hlt
      let finish := min (start + windowSize) stop
      have hwindow : 0 < windowSize := by decide
      have hfinish : min ((start : ℤ) + windowSize) stop = finish := by
        rw [Nat.cast_min, Nat.cast_add]
      have hcount : ((finish : ℤ) - start).toNat = finish - start := by omega
      have hread := @readWindow?_eq read hit start (finish - start) fun index hle hless ↦
        h index hle (by omega)
      have hsplit : rest = (finish - start) + (stop - finish) := by omega
      have hstart : start + (finish - start) = finish := by omega
      simp only [hfinish, hcount, hread, Option.bind_eq_bind, Option.bind_some, Option.pure_def]
      rw [hsplit, firstOf_add, ← findIdx?_map_range', hstart]
      cases ((List.range' start (finish - start)).map hit).findIdx? id with
      | some offset => simp
      | none =>
        have hrun := ih (stop - finish) (by omega)
          (fun index hle hless ↦ h index (by omega) hless) rfl
        rw [first_eq_firstOf] at hrun
        simpa using hrun
    · next hge =>
      have hzero : rest = 0 := by omega
      rw [hzero]
      rfl

end Search

/-! ## Single pixels -/

namespace Mask

variable (mask : Mask)

/-- An element by its number. -/
def checkedBit? (number : ℤ) : Option Bool :=
  (elementIndex? mask.bits.size number).map mask.bit

/-- An element by its column and row, each of which has to be one of the mask. -/
def checkedPixel? (x y : ℤ) : Option Bool :=
  if mask.Contains x y then mask.checkedBit? (y * mask.width + x) else none

/-- Nothing is read outside of the rectangle. -/
def checkedIsSet? (x y : ℤ) : Option Bool :=
  if mask.Contains x y then mask.checkedPixel? x y else some false

/-- With corners connected the pixel across is looked at only if there is a pixel ahead, and the
pixel ahead is then read without another look at its coordinates. -/
def checkedTurn? (connectivity : Connectivity) (position : Position) : Option Turn :=
  let ahead := position.ahead
  let across := position.aheadAcross
  match connectivity with
  | .straight => do
    if ← mask.checkedIsSet? ahead.1 ahead.2 then
      if ← mask.checkedIsSet? across.1 across.2 then return .diagonal else return .straight
    else return .rotation
  | .diagonal => do
    if mask.Contains ahead.1 ahead.2 then
      if ← mask.checkedIsSet? across.1 across.2 then return .diagonal
      else
        if ← mask.checkedPixel? ahead.1 ahead.2 then return .straight else return .rotation
    else return .rotation

variable {mask} {x y : ℤ} {position : Position}

theorem checkedBit?_natCast {index : ℕ} (h : index < mask.size) :
    mask.checkedBit? index = some (mask.bit index) :=
  map_elementIndex?_natCast (mask.size_bits.symm ▸ h) mask.bit

theorem natCast_index (h : mask.Contains x y) : (mask.index x y : ℤ) = y * mask.width + x := by
  obtain ⟨hx, -, hy, -⟩ := h
  rw [index, Nat.cast_add, Nat.cast_mul, Int.toNat_of_nonneg hx, Int.toNat_of_nonneg hy]

theorem checkedPixel?_eq (h : mask.Contains x y) :
    mask.checkedPixel? x y = some (mask.isSet x y) := by
  have hlt : mask.index x y < mask.size := @index_lt_size mask (x, y) h
  rw [checkedPixel?, if_pos h, ← natCast_index h, checkedBit?_natCast hlt, isSet, if_pos h]

@[simp]
theorem checkedIsSet?_eq (mask : Mask) (x y : ℤ) :
    mask.checkedIsSet? x y = some (mask.isSet x y) := by
  rw [checkedIsSet?]
  split
  · next h => exact checkedPixel?_eq h
  · next h => rw [isSet_of_not_contains mask h]

/-- If there is no pixel ahead, then there is none across from it. -/
theorem not_contains_aheadAcross (h : mask.Contains position.x position.y)
    (hahead : ¬ mask.Contains position.ahead.1 position.ahead.2) :
    ¬ mask.Contains position.aheadAcross.1 position.aheadAcross.2 := by
  obtain ⟨x, y, side⟩ := position
  unfold Contains at *
  cases side <;>
    simp only [Position.aheadAcross, Position.ahead, Side.along, Side.clockwise,
      Side.outward] at * <;> omega

theorem checkedTurn?_eq (connectivity : Connectivity) (h : mask.Contains position.x position.y) :
    mask.checkedTurn? connectivity position = some (mask.chooseTurn connectivity position) := by
  cases connectivity with
  | straight =>
    simp only [checkedTurn?, chooseTurn, checkedIsSet?_eq, Option.bind_eq_bind, Option.bind_some]
    split
    · split <;> rfl
    · rfl
  | diagonal =>
    simp only [checkedTurn?, chooseTurn, checkedIsSet?_eq, Option.bind_eq_bind, Option.bind_some]
    split
    · next hahead =>
      rw [checkedPixel?_eq hahead, Option.bind_some]
      split
      · rfl
      · split <;> rfl
    · next hahead =>
      rw [isSet_of_not_contains mask hahead,
        isSet_of_not_contains mask (not_contains_aheadAcross h hahead)]
      rfl

/-! ## Run edges -/

variable (mask)

/-- The side if its pixel is one of the mask; a tracer can be put on no other side. -/
def checkedSide? (x y : ℤ) (side : Side) : Option Position :=
  if mask.Contains x y then some ⟨x, y, side⟩ else none

def checkedRunStart? (number : ℤ) : Option (Option Position) := do
  match ← Search.checkedFirst? mask.checkedBit? number mask.size with
  | some found =>
    return some (← mask.checkedSide? (found % mask.width) (found / mask.width) .left)
  | none => return none

/-- Column and row of a position; without one, the search begins at the first pixel. -/
def searchPixel (after : Option Position) : ℤ × ℤ :=
  match after with
  | some position => (position.x, position.y)
  | none => (0, 0)

/-- The number of pixels that are still to come in the run of a set pixel. -/
def checkedRest? (x y : ℤ) : Option ℤ := do
  let number := y * mask.width + x
  match ← Search.checkedFirst? (fun other ↦ (mask.checkedBit? other).map (!·)) (number + 1)
      (number + mask.width - x) with
  | some unset => return unset - (number + 1)
  | none => return mask.width - x - 1

def checkedNextRunEdge? (after : Option Position) : Option (Option Position) :=
  if mask.size = 0 then some none
  else do
    let (x, y) := searchPixel after
    let number := y * mask.width + x
    if ← mask.checkedPixel? x y then
      match after with
      | none => return some (← mask.checkedSide? 0 0 .left)
      | some position =>
        let rest ← mask.checkedRest? x y
        if position.side = .right ∧ rest = 0 then mask.checkedRunStart? (number + 1)
        else return some (← mask.checkedSide? (x + rest) y .right)
    else mask.checkedRunStart? (number + 1)

variable {mask}

theorem checkedSide?_eq {index : ℕ} (h : index < mask.size) :
    mask.checkedSide? (index % mask.width) (index / mask.width) .left =
      some (mask.atSlot (2 * index)) := by
  have hslot : mask.atSlot (2 * index) = ⟨index % mask.width, index / mask.width, .left⟩ := by
    simp [atSlot]
  have hcontains := contains_atSlot (Nat.mul_lt_mul_of_pos_left h two_pos)
  rw [hslot] at hcontains ⊢
  exact if_pos hcontains

theorem checkedRunStart?_eq (mask : Mask) (index : ℕ) :
    mask.checkedRunStart? index = some (mask.runStartFrom index) := by
  have hsearch := @Search.checkedFirst?_eq mask.checkedBit? mask.bit index mask.size
    fun other _ hlt ↦ checkedBit?_natCast hlt
  rw [checkedRunStart?, runStartFrom, hsearch]
  cases hfound : Search.first mask.bit index mask.size with
  | none => rfl
  | some found =>
    rw [Search.first_eq_firstOf, Search.firstOf_eq_some_iff] at hfound
    have hlt : found < mask.size := by omega
    simp only [Option.bind_eq_bind, Option.bind_some, Option.map_some, checkedSide?_eq hlt]
    rfl

/-- The number at which the next row begins. -/
theorem natCast_rowEnd (h : mask.Contains x y) :
    (((mask.index x y / mask.width + 1) * mask.width : ℕ) : ℤ) =
      mask.index x y + mask.width - x := by
  have hdiv : mask.index x y / mask.width = y.toNat := @index_div_width mask (x, y) h
  obtain ⟨hx, hw, hy, -⟩ := id h
  rw [hdiv, natCast_index h, Nat.cast_mul, Nat.cast_succ, Int.toNat_of_nonneg hy, Int.add_mul]
  omega

/-- The right side of a pixel further on in the row, by the number of the pixel behind it. -/
theorem checkedSide?_right (h : mask.Contains x y) {stop : ℕ} (hlt : mask.index x y < stop)
    (hle : stop ≤ (mask.index x y / mask.width + 1) * mask.width) :
    mask.checkedSide? (x + (stop - (mask.index x y + 1))) y .right =
      some (mask.atSlot (2 * (stop - 1) + 1)) := by
  obtain ⟨more, rfl⟩ : ∃ more, stop = mask.index x y + 1 + more :=
    ⟨stop - (mask.index x y + 1), by omega⟩
  have hend := natCast_rowEnd h
  have hcontains : mask.Contains (x + more) y := by
    obtain ⟨hx, -, hy, hh⟩ := h
    exact ⟨by omega, by omega, hy, hh⟩
  have hindex : mask.index (x + more) y = mask.index x y + more := by
    have hcast := natCast_index hcontains
    have hcast' := natCast_index h
    omega
  have hslot : mask.slot ⟨x + more, y, .right⟩ = 2 * (mask.index x y + 1 + more - 1) + 1 := by
    rw [slot, hindex, if_pos rfl]
    omega
  have hcolumn : x + ((mask.index x y + 1 + more : ℕ) - ((mask.index x y : ℤ) + 1)) = x + more := by
    omega
  rw [← hslot, mask.atSlot_slot hcontains rfl, hcolumn, checkedSide?, if_pos hcontains]

theorem checkedRest?_eq (h : mask.Contains x y) :
    let rowEnd := (mask.index x y / mask.width + 1) * mask.width
    let stop := (Search.first (fun i ↦ !mask.bit i) (mask.index x y + 1) rowEnd).getD rowEnd
    mask.checkedRest? x y = some ((stop : ℤ) - (mask.index x y + 1)) := by
  intro rowEnd stop
  have hle : rowEnd ≤ mask.size := @rowEnd_le_size mask (x, y) h
  have hend : (rowEnd : ℤ) = mask.index x y + mask.width - x := natCast_rowEnd h
  have hsearch := @Search.checkedFirst?_eq (fun other ↦ (mask.checkedBit? other).map (!·))
    (fun i ↦ !mask.bit i) (mask.index x y + 1) rowEnd fun other _ hlt ↦ by
      rw [checkedBit?_natCast (hlt.trans_le hle), Option.map_some]
  rw [hend, Nat.cast_succ, natCast_index h] at hsearch
  rw [checkedRest?, hsearch]
  simp only [stop]
  cases Search.first (fun i ↦ !mask.bit i) (mask.index x y + 1) rowEnd with
  | none =>
    rw [Option.getD_none, hend]
    simp only [Option.map_none, Option.bind_eq_bind, Option.bind_some, Option.pure_def]
    congr 1
    omega
  | some unset =>
    rw [Option.getD_some, natCast_index h]
    rfl

theorem contains_searchPixel (hsize : mask.size ≠ 0) {after : Option Position}
    (h : ∀ position, after = some position → mask.Contains position.x position.y) :
    mask.Contains (searchPixel after).1 (searchPixel after).2 := by
  cases after with
  | none =>
    have hpos : 2 * 0 < 2 * mask.size := by omega
    simpa [atSlot, searchPixel] using contains_atSlot hpos
  | some position => exact h position rfl

theorem checkedNextRunEdge?_none (mask : Mask) :
    mask.checkedNextRunEdge? none = some (mask.nextRunEdge none) := by
  rw [checkedNextRunEdge?]
  split
  · next hsize =>
    have hbit : mask.bit 0 = false := bit_eq_false_of_size_le hsize.le
    simp [nextRunEdge, hbit, runStartFrom, hsize, Search.first_eq_firstOf, Search.firstOf]
  · next hsize =>
    have hcontains : mask.Contains 0 0 :=
      @contains_searchPixel mask hsize none fun position hposition ↦ by cases hposition
    have hbit : mask.isSet 0 0 = mask.bit 0 := by simp [isSet, hcontains, index]
    have hrest : mask.checkedRunStart? (0 * mask.width + 0 + 1) =
        some (mask.runStartFrom (0 + 1)) := by
      simpa using mask.checkedRunStart?_eq 1
    have hside : mask.checkedSide? 0 0 .left = some (mask.atSlot 0) := by
      simpa using checkedSide?_eq (Nat.pos_of_ne_zero hsize)
    simp only [searchPixel, nextRunEdge, checkedPixel?_eq hcontains, hbit, hrest, hside,
      Option.bind_eq_bind, Option.bind_some]
    split <;> rfl

theorem checkedNextRunEdge?_some (h : mask.Contains position.x position.y) :
    mask.checkedNextRunEdge? (some position) = some (mask.nextRunEdge (some position)) := by
  have hsize : mask.size ≠ 0 := by
    have hlt := @index_lt_size mask (position.x, position.y) h
    omega
  have hbit : mask.isSet position.x position.y =
      mask.bit (mask.index position.x position.y) := by
    rw [isSet, if_pos h]
  have hstart := mask.checkedRunStart?_eq (mask.index position.x position.y + 1)
  rw [Nat.cast_succ, natCast_index h] at hstart
  rw [checkedNextRunEdge?, if_neg hsize]
  simp only [searchPixel, nextRunEdge, checkedPixel?_eq h, hbit, hstart, Option.bind_eq_bind,
    Option.bind_some]
  split
  · next hset =>
    obtain ⟨hstop, hle, -⟩ := exists_stop_of_bit hset
    have hrest := checkedRest?_eq h
    have hside := checkedSide?_right h hstop hle
    simp only [hrest, Option.bind_some]
    generalize (Search.first (fun i ↦ !mask.bit i) (mask.index position.x position.y + 1)
      ((mask.index position.x position.y / mask.width + 1) * mask.width)).getD
        ((mask.index position.x position.y / mask.width + 1) * mask.width) = stop at *
    have hzero : (stop : ℤ) - (mask.index position.x position.y + 1) = 0 ↔
        stop = mask.index position.x position.y + 1 := by
      omega
    simp only [hside, hzero]
    split
    · next hlast => rw [hlast.2]
    · rfl
  · rfl

/-- From a pixel of the mask or from nowhere all that the search reads is in the mask. -/
theorem checkedNextRunEdge?_eq {after : Option Position}
    (h : ∀ position, after = some position → mask.Contains position.x position.y) :
    mask.checkedNextRunEdge? after = some (mask.nextRunEdge after) := by
  cases after with
  | none => exact mask.checkedNextRunEdge?_none
  | some position => exact checkedNextRunEdge?_some (h position rfl)

end Mask

end ContourTracing
