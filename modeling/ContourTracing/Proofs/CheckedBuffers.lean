import ContourTracing.Proofs.CheckedAccess
import ContourTracing.Proofs.Filling
import ContourTracing.Tracer.NextBoundary

/-!
# Checked accesses to buffers

Every read of a cell and every write is checked, in the searches that pass over brackets and in
those that fill objects. A bracket must not only have a cell: this cell must belong to the row of
the pixel, so that a right bracket never comes to lie at the beginning of the next row. Buffers of
the size of the mask pass all checks.
-/

namespace ContourTracing

/-! ## Buffers -/

namespace Cells

def checkedIsMarked? (cells : Cells) (number : ℤ) : Option Bool :=
  (elementIndex? cells.size number).map cells.isMarked

def checkedMark? (cells : Cells) (number : ℤ) : Option Cells :=
  (elementIndex? cells.size number).map cells.mark

def checkedClear? (cells : Cells) (number : ℤ) : Option Cells :=
  (elementIndex? cells.size number).map cells.clear

def checkedFill? (cells : Cells) (start : ℤ) : ℕ → Option Cells
  | 0 => some cells
  | count + 1 => do
    let marked ← cells.checkedMark? start
    checkedFill? marked (start + 1) count

variable {cells : Cells} {index : ℕ}

theorem checkedIsMarked?_natCast (h : index < cells.size) :
    cells.checkedIsMarked? index = some (cells.isMarked index) :=
  map_elementIndex?_natCast h cells.isMarked

theorem checkedMark?_natCast (h : index < cells.size) :
    cells.checkedMark? index = some (cells.mark index) :=
  map_elementIndex?_natCast h cells.mark

theorem checkedClear?_natCast (h : index < cells.size) :
    cells.checkedClear? index = some (cells.clear index) :=
  map_elementIndex?_natCast h cells.clear

theorem checkedFill?_natCast {count : ℕ} (h : index + count ≤ cells.size) :
    cells.checkedFill? index count = some (cells.fill index count) := by
  induction count generalizing cells index with
  | zero => rfl
  | succ count ih =>
    have hrest := @ih (cells.mark index) (index + 1) (by rw [size_mark]; omega)
    rw [Nat.cast_succ] at hrest
    rw [checkedFill?, checkedMark?_natCast (by omega), Option.bind_eq_bind, Option.bind_some, hrest,
      fill]

end Cells

/-! ## Brackets -/

namespace Mask

/-- The number of the cell for the bracket of a position. -/
def bracketNumber? (mask : Mask) (position : Position) : Option ℤ :=
  let number := position.y * mask.width + position.x
  match position.side with
  | .left => some number
  | .right => if position.x < mask.width - 1 then some (number + 1) else none
  | .top | .bottom => none

variable {mask : Mask} {position : Position}

theorem bracketNumber?_eq (h : mask.Contains position.x position.y) :
    mask.bracketNumber? position = (mask.bracketCell? position).map Nat.cast := by
  obtain ⟨x, y, side⟩ := position
  have hindex : (mask.index x y : ℤ) = y * mask.width + x := natCast_index h
  cases side with
  | left => simp only [bracketNumber?, bracketCell?, Option.map_some, hindex]
  | right =>
    have hlast : x < mask.width - 1 ↔ x + 1 < mask.width := by omega
    simp only [bracketNumber?, bracketCell?, hlast]
    split
    · rw [Option.map_some, Nat.cast_succ, hindex]
    · rfl
  | top | bottom => rfl

/-- A bracket lies in the row of its pixel. -/
theorem bracketCell?_row (h : mask.Contains position.x position.y) {cell : ℕ}
    (hcell : mask.bracketCell? position = some cell) :
    cell < mask.size ∧ cell / mask.width = position.y.toNat := by
  obtain ⟨x, y, side⟩ := position
  have hself {x : ℤ} (h : mask.Contains x y) :
      mask.index x y < mask.size ∧ mask.index x y / mask.width = y.toNat :=
    ⟨@index_lt_size mask (x, y) h, @index_div_width mask (x, y) h⟩
  obtain ⟨hx, -, hy⟩ : 0 ≤ x ∧ x < mask.width ∧ 0 ≤ y ∧ y < mask.height := id h
  cases side with
  | left =>
    cases hcell
    exact hself h
  | right =>
    simp only [bracketCell?, Option.ite_none_right_eq_some, Option.some.injEq] at hcell
    obtain ⟨hlt, rfl⟩ := hcell
    have hnext : mask.index (x + 1) y = mask.index x y + 1 := by
      unfold index
      omega
    rw [← hnext]
    exact hself ⟨by omega, hlt, hy⟩
  | top | bottom => cases hcell

end Mask

namespace Cells

/-- The index of a cell, which has to belong to the given row. -/
def indexInRow? (cells : Cells) (mask : Mask) (row number : ℤ) : Option ℕ :=
  if number / mask.width = row then elementIndex? cells.size number else none

def checkedHasBracket? (cells : Cells) (mask : Mask) (position : Position) : Option Bool :=
  match mask.bracketNumber? position with
  | some number => (cells.indexInRow? mask position.y number).map cells.isMarked
  | none => some false

def checkedPutBracket? (cells : Cells) (mask : Mask) (position : Position) : Option Cells :=
  match mask.bracketNumber? position with
  | some number => (cells.indexInRow? mask position.y number).map cells.mark
  | none => some cells

variable {cells : Cells} {mask : Mask} {position : Position}

theorem indexInRow?_natCast (h : mask.Contains position.x position.y)
    (hsize : cells.size = mask.size) {cell : ℕ} (hcell : mask.bracketCell? position = some cell) :
    cells.indexInRow? mask position.y cell = some cell := by
  obtain ⟨hlt, hrow⟩ := Mask.bracketCell?_row h hcell
  have hdiv : (cell : ℤ) / mask.width = position.y := by
    rw [← Int.natCast_ediv, hrow, Int.toNat_of_nonneg h.2.2.1]
  rw [indexInRow?, if_pos hdiv, elementIndex?_natCast (hsize ▸ hlt)]

theorem checkedHasBracket?_eq (h : mask.Contains position.x position.y)
    (hsize : cells.size = mask.size) :
    cells.checkedHasBracket? mask position = some (cells.hasBracket mask position) := by
  rw [checkedHasBracket?, hasBracket, Mask.bracketNumber?_eq h]
  cases hcell : mask.bracketCell? position with
  | none => rfl
  | some cell =>
    dsimp only [Option.map_some]
    rw [indexInRow?_natCast h hsize hcell, Option.map_some]

theorem checkedPutBracket?_eq (h : mask.Contains position.x position.y)
    (hsize : cells.size = mask.size) :
    cells.checkedPutBracket? mask position = some (cells.putBracket mask position) := by
  rw [checkedPutBracket?, putBracket, Mask.bracketNumber?_eq h]
  cases hcell : mask.bracketCell? position with
  | none => rfl
  | some cell =>
    dsimp only [Option.map_some]
    rw [indexInRow?_natCast h hsize hcell, Option.map_some]

end Cells

/-! ## Searches among brackets -/

namespace BracketPair

/-- Both buffers are read at every edge, whether or not a row ends there. -/
def checkedSweep? (pair : BracketPair) (mask : Mask) : ℕ → Sweep → Option (Bool × Sweep)
  | 0, s => some (false, s)
  | fuel + 1, s => do
    match ← mask.checkedNextRunEdge? (s.edge.or s.start) with
    | none => return (false, s)
    | some edge =>
      let external ← (pair.cells .external).checkedHasBracket? mask edge
      let internal ← (pair.cells .internal).checkedHasBracket? mask edge
      if edge.side = .right ∧ edge.x + 1 = mask.width then
        checkedSweep? pair mask fuel ⟨s.start, some edge, 0⟩
      else if external || internal then
        checkedSweep? pair mask fuel ⟨s.start, some edge, levelAcross edge.side external s.level⟩
      else return (true, ⟨s.start, some edge, s.level + 1⟩)

def checkedPutBracket? (pair : BracketPair) (mask : Mask) (kind : BoundaryKind)
    (position : Position) : Option BracketPair :=
  match kind, pair with
  | .external, ⟨first, second⟩ => do return ⟨← first.checkedPutBracket? mask position, second⟩
  | .internal, ⟨first, some second⟩ => do
    return ⟨first, some (← second.checkedPutBracket? mask position)⟩
  | .internal, ⟨first, none⟩ => do return ⟨← first.checkedPutBracket? mask position, none⟩

variable {pair : BracketPair} {mask : Mask}

theorem checkedSweep?_eq (hsize : ∀ kind, (pair.cells kind).size = mask.size) (fuel : ℕ)
    {start : Sweep}
    (hstart : ∀ position, start.edge.or start.start = some position →
      mask.Contains position.x position.y) :
    pair.checkedSweep? mask fuel start = some (pair.sweep mask fuel start) := by
  induction fuel generalizing start with
  | zero => rfl
  | succ fuel ih =>
    rw [checkedSweep?, sweep, Mask.checkedNextRunEdge?_eq hstart]
    cases hnext : mask.nextRunEdge (start.edge.or start.start) with
    | none => rfl
    | some edge =>
      have hcontains := Mask.contains_of_isBoundary (Mask.nextRunEdge_eq_some hnext).1
      have hedge (level : ℤ) := @ih ⟨start.start, some edge, level⟩ fun position hposition ↦ by
        cases hposition
        exact hcontains
      simp only [Option.bind_eq_bind, Option.bind_some, hedge,
        Cells.checkedHasBracket?_eq hcontains (hsize _)]
      split
      · rfl
      · split <;> rfl

theorem checkedPutBracket?_eq {position : Position} (h : mask.Contains position.x position.y)
    (hsize : ∀ kind, (pair.cells kind).size = mask.size) (kind : BoundaryKind) :
    pair.checkedPutBracket? mask kind position = some (pair.putBracket mask kind position) := by
  have hput := Cells.checkedPutBracket?_eq h (hsize kind)
  obtain ⟨first, second⟩ := pair
  cases kind with
  | external =>
    simp only [checkedPutBracket?, cells] at hput ⊢
    rw [hput]
    rfl
  | internal =>
    -- The inner brackets stand in the second buffer where there is one.
    cases second with
    | none =>
      simp only [checkedPutBracket?, cells, Option.getD] at hput ⊢
      rw [hput]
      rfl
    | some second =>
      simp only [checkedPutBracket?, cells, Option.getD] at hput ⊢
      rw [hput]
      rfl

end BracketPair

/-! ## Filling -/

namespace Cells

/-- Fills the rest of a row and gives the number of the pixel that comes next. -/
def checkedFillRow? (cells : Cells) (mask : Mask) (number x : ℤ) : Option (Cells × ℤ) := do
  match ← Search.checkedFirst? cells.checkedIsMarked? (number + 1) (number + mask.width - x) with
  | some closing =>
    let cleared ← cells.checkedClear? closing
    let inside := closing - (number + 1)
    return (← cleared.checkedFill? (number + 1) inside.toNat, number + inside + 1)
  | none =>
    let inside := mask.width - x - 1
    return (← cells.checkedFill? (number + 1) inside.toNat, number + inside + 1)

def checkedFillFrom? (mask : Mask) : ℕ → Cells → ℤ → ℤ → Option (Cells × Option ℤ)
  | 0, cells, _, _ => some (cells, none)
  | fuel + 1, cells, number, x => do
    let (filled, next) ← cells.checkedFillRow? mask number x
    match ← Search.checkedFirst? mask.checkedBit? next mask.size with
    | none => return (filled, none)
    | some found =>
      if ← filled.checkedIsMarked? found then
        checkedFillFrom? mask fuel filled found (found % mask.width)
      else return (filled, some found)

variable {cells : Cells} {mask : Mask} {x y : ℤ}

theorem checkedFillRow?_eq (h : mask.Contains x y) (hsize : cells.size = mask.size) :
    cells.checkedFillRow? mask (mask.index x y) x =
      some ((cells.fillRow mask (mask.index x y)).1,
        ((cells.fillRow mask (mask.index x y)).2 : ℤ)) := by
  have hend := Mask.natCast_rowEnd h
  have hle : (mask.index x y / mask.width + 1) * mask.width ≤ mask.size :=
    @Mask.rowEnd_le_size mask (x, y) h
  obtain ⟨-, hx, -⟩ := id h
  rw [checkedFillRow?, fillRow, ← hend]
  generalize (mask.index x y / mask.width + 1) * mask.width = rowEnd at hend hle ⊢
  generalize mask.index x y = index at hend ⊢
  have hsearch := @Search.checkedFirst?_eq cells.checkedIsMarked? cells.isMarked (index + 1) rowEnd
    fun other _ hlt ↦ checkedIsMarked?_natCast (by omega)
  rw [Nat.cast_succ] at hsearch
  rw [hsearch]
  cases hclosing : Search.first cells.isMarked (index + 1) rowEnd with
  | none =>
    have hinside : (mask.width - x - 1).toNat = rowEnd - (index + 1) := by omega
    have hfill := @checkedFill?_natCast cells (index + 1) (rowEnd - (index + 1)) (by omega)
    rw [Nat.cast_succ] at hfill
    have hnext : (index : ℤ) + (mask.width - x - 1) + 1 = rowEnd := by omega
    simp only [Option.map_none, Option.bind_eq_bind, Option.bind_some, hinside, hfill, hnext,
      Option.getD_none]
    rfl
  | some closing =>
    rw [Search.first_eq_firstOf, Search.firstOf_eq_some_iff] at hclosing
    obtain ⟨hbehind, hlt, -⟩ := hclosing
    have hclear := @checkedClear?_natCast cells closing (by omega)
    have hinside : ((closing : ℤ) - (index + 1)).toNat = closing - (index + 1) := by omega
    have hfill := @checkedFill?_natCast (cells.clear closing) (index + 1) (closing - (index + 1))
      (by rw [size_clear]; omega)
    rw [Nat.cast_succ] at hfill
    have hnext : (index : ℤ) + (closing - (index + 1)) + 1 = closing := by omega
    simp only [Option.map_some, Option.bind_eq_bind, Option.bind_some, hclear, hinside, hfill,
      hnext, Option.getD_some]
    rfl

theorem checkedFillFrom?_eq (hsize : cells.size = mask.size) (fuel : ℕ) {index : ℕ}
    (hindex : index < mask.size) :
    cells.checkedFillFrom? mask fuel index (index % mask.width) =
      some ((cells.fillFrom mask fuel index).1,
        (cells.fillFrom mask fuel index).2.map Nat.cast) := by
  induction fuel generalizing cells index with
  | zero => rfl
  | succ fuel ih =>
    -- As a pixel the index has a column, which tells where its row ends.
    obtain ⟨p, hp, rfl⟩ := Mask.exists_index_eq hindex
    have hcolumn : ((mask.index p.1 p.2 : ℕ) : ℤ) % mask.width = p.1 := by
      rw [← Int.natCast_emod, Mask.index_mod_width hp, Int.toNat_of_nonneg hp.1]
    have hwidth : 0 < mask.width := by
      obtain ⟨hx, hlt, -⟩ := hp
      omega
    have hstop := cells.lt_fillRow_snd_of_width_pos hwidth (mask.index p.1 p.2)
    have hsearch := @Search.checkedFirst?_eq mask.checkedBit? mask.bit
      (cells.fillRow mask (mask.index p.1 p.2)).2 mask.size
      fun other _ hlt ↦ Mask.checkedBit?_natCast hlt
    rw [checkedFillFrom?, hcolumn, checkedFillRow?_eq hp hsize, fillFrom_succ fuel hstop]
    simp only [Option.bind_eq_bind, Option.bind_some, hsearch]
    cases hfound : Search.first mask.bit (cells.fillRow mask (mask.index p.1 p.2)).2 mask.size with
    | none => rfl
    | some found =>
      rw [Search.first_eq_firstOf, Search.firstOf_eq_some_iff] at hfound
      have hlt : found < mask.size := by omega
      have hfilled : (cells.fillRow mask (mask.index p.1 p.2)).1.size = mask.size := by
        rw [size_fillRow, hsize]
      have hmarked := checkedIsMarked?_natCast (hfilled.symm ▸ hlt)
      simp only [Option.map_some, hmarked, Option.bind_some, ih hfilled hlt]
      split <;> rfl

end Cells

end ContourTracing
