import ContourTracing.Proofs.CheckedBuffers
import ContourTracing.Proofs.SearchFinds

/-!
# Checked accesses of a tracer

Steps and searches are made here with a check before every read and every write. For a tracer that
stands on a pixel of its mask, or nowhere, and whose buffers have the size of the mask no check
fails, and the results are those of the steps and searches without checks.
-/

namespace ContourTracing

/-! ## Steps and searches with checks -/

def Memory.checkedRecord? (memory : Memory) (mask : Mask) (position : Position) : Option Memory :=
  match memory with
  | nothing => some nothing
  | brackets pair active level => do
    return brackets (← pair.checkedPutBracket? mask active position) active level
  | filled cells => do return filled (← cells.checkedPutBracket? mask position)

namespace Tracer

variable (tracer : Tracer)

def checkedAdvance? (placement : Placement) : Option Tracer := do
  let turn ← tracer.mask.checkedTurn? tracer.connectivity placement.current
  let step := placement.current.side.step turn
  let position := placement.current.move step
  let memory ← tracer.memory.checkedRecord? tracer.mask position
  return { tracer with
    placement := some ⟨placement.start, position, some step⟩
    tally := tracer.tally.record step position
    memory := memory }

/-- A step with all checks. A fault of the step is a result, and none is a failed check. -/
def checkedNext? : Option (Except Fault Tracer) :=
  match tracer.placement with
  | none => some (.error (.state .notPositioned))
  | some placement =>
    if placement.isFinished then some (.ok tracer)
    else do return .ok (← tracer.checkedAdvance? placement)

def checkedNextSingle? : Option (Bool × Tracer) := do
  match ← tracer.mask.checkedNextRunEdge? tracer.position? with
  | some edge => return (true, tracer.place edge)
  | none => return (false, tracer)

def checkedNextUntraced? (pair : BracketPair) (active : BoundaryKind) (level : ℤ) :
    Option (Bool × Tracer) := do
  let edges := 2 * tracer.mask.size
  let (found, s) ← pair.checkedSweep? tracer.mask (edges + 1) ⟨tracer.position?, none, level⟩
  match s.edge with
  | some edge =>
    let active := if found then BoundaryKind.ofSide edge.side else active
    return (found, { tracer.place edge with memory := .brackets pair active s.level })
  | none => return (found, { tracer with memory := .brackets pair active s.level })

def checkedNextOutermost? (cells : Cells) : Option (Bool × Tracer) :=
  if tracer.mask.size = 0 then some (false, tracer)
  else do
    let (x, y) := Mask.searchPixel tracer.position?
    let number := y * tracer.mask.width + x
    if ← cells.checkedIsMarked? number then
      match ← cells.checkedFillFrom? tracer.mask tracer.mask.size number x with
      | (cells, some found) =>
        let position ← tracer.mask.checkedSide? (found % tracer.mask.width)
          (found / tracer.mask.width) .left
        return (true, { tracer.place position with memory := .filled cells })
      | (cells, none) => return (false, { tracer with memory := .filled cells })
    else tracer.checkedNextSingle?

/-- A search with all checks. -/
def checkedNextBoundary? : Option (Bool × Tracer) := do
  let (found, tracer) ← match tracer.memory with
    | .nothing => tracer.checkedNextSingle?
    | .brackets pair active level => tracer.checkedNextUntraced? pair active level
    | .filled cells => tracer.checkedNextOutermost? cells
  return (found, tracer.resetCounters)

/-! ## All checks pass -/

/-- The tracer stands on a pixel of its mask or nowhere, and has a cell for every pixel in each of
its buffers. -/
structure IsSound (tracer : Tracer) : Prop where
  contains : ∀ position, tracer.position? = some position →
    tracer.mask.Contains position.x position.y
  size_eq : ∀ cells ∈ tracer.memory.buffers, cells.size = tracer.mask.size

end Tracer

/-- A step leads to a set pixel, or it stays where it is. -/
theorem Mask.contains_successor {mask : Mask} {position : Position} (connectivity : Connectivity)
    (h : mask.Contains position.x position.y) :
    mask.Contains (mask.successor connectivity position).x
      (mask.successor connectivity position).y := by
  rcases mask.successor_cases connectivity position with
    ⟨hahead, -, heq⟩ | ⟨hacross, -, heq⟩ | ⟨-, -, heq⟩ <;> rw [heq]
  · exact mask.contains_of_isSet hahead
  · exact mask.contains_of_isSet hacross
  · exact h

namespace Tracer

variable {tracer : Tracer} {position : Position}

namespace IsSound

theorem size_cells (h : tracer.IsSound) {pair : BracketPair} {active : BoundaryKind} {level : ℤ}
    (hmemory : tracer.memory = .brackets pair active level) (kind : BoundaryKind) :
    (pair.cells kind).size = tracer.mask.size := by
  have hsize := h.size_eq
  rw [hmemory, Memory.buffers] at hsize
  obtain ⟨first, second⟩ := pair
  cases kind with
  | external => exact hsize first List.mem_cons_self
  | internal =>
    cases second with
    | none => exact hsize first List.mem_cons_self
    | some second => exact hsize second (List.mem_cons_of_mem _ List.mem_cons_self)

theorem size_filled (h : tracer.IsSound) {cells : Cells} (hmemory : tracer.memory = .filled cells) :
    cells.size = tracer.mask.size :=
  h.size_eq cells (by rw [hmemory]; exact List.mem_cons_self)

theorem checkedRecord?_eq (h : tracer.IsSound)
    (hposition : tracer.mask.Contains position.x position.y) :
    tracer.memory.checkedRecord? tracer.mask position =
      some (tracer.memory.record tracer.mask position) := by
  cases hmemory : tracer.memory with
  | nothing => rfl
  | brackets pair active level =>
    rw [Memory.checkedRecord?,
      BracketPair.checkedPutBracket?_eq hposition (h.size_cells hmemory) active]
    rfl
  | filled cells =>
    rw [Memory.checkedRecord?, Cells.checkedPutBracket?_eq hposition (h.size_filled hmemory)]
    rfl

theorem checkedNext?_eq (h : tracer.IsSound) : tracer.checkedNext? = some tracer.next := by
  cases hplacement : tracer.placement with
  | none => simp only [checkedNext?, Tracer.next, hplacement]
  | some placement =>
    have hcontains := h.contains placement.current (by rw [position?, hplacement]; rfl)
    have hturn := Mask.checkedTurn?_eq tracer.connectivity hcontains
    have hrecord := h.checkedRecord?_eq (Mask.contains_successor tracer.connectivity hcontains)
    rw [Mask.successor, Mask.chooseStep] at hrecord
    simp only [checkedNext?, Tracer.next, hplacement]
    split
    · rfl
    · simp only [checkedAdvance?, hturn, hrecord, Option.bind_eq_bind, Option.bind_some]
      rfl

theorem checkedNextSingle?_eq (h : tracer.IsSound) :
    tracer.checkedNextSingle? = some tracer.nextSingle := by
  rw [checkedNextSingle?, nextSingle, Mask.checkedNextRunEdge?_eq h.contains]
  cases tracer.mask.nextRunEdge tracer.position? <;> rfl

theorem checkedNextUntraced?_eq (h : tracer.IsSound) {pair : BracketPair} {active : BoundaryKind}
    {level : ℤ} (hmemory : tracer.memory = .brackets pair active level) :
    tracer.checkedNextUntraced? pair active level =
      some (tracer.nextUntraced pair active level) := by
  have hsweep := BracketPair.checkedSweep?_eq (h.size_cells hmemory) (2 * tracer.mask.size + 1)
    (show ∀ position, (Sweep.mk tracer.position? none level).edge.or
      (Sweep.mk tracer.position? none level).start = some position → _ from h.contains)
  simp only [checkedNextUntraced?, nextUntraced, hsweep, Option.bind_eq_bind, Option.bind_some]
  generalize pair.sweep tracer.mask (2 * tracer.mask.size + 1) _ = run
  obtain ⟨found, start, edge, level⟩ := run
  cases edge <;> rfl

/-- A search begins at a pixel, at the first one if the tracer stands nowhere. -/
theorem index_eq (h : tracer.IsSound) (hsize : tracer.mask.size ≠ 0) :
    tracer.index < tracer.mask.size ∧
      (Mask.searchPixel tracer.position?).2 * tracer.mask.width +
        (Mask.searchPixel tracer.position?).1 = tracer.index ∧
      (Mask.searchPixel tracer.position?).1 = tracer.index % tracer.mask.width := by
  have hcontains := Mask.contains_searchPixel hsize h.contains
  have hindex : tracer.index = tracer.mask.index (Mask.searchPixel tracer.position?).1
      (Mask.searchPixel tracer.position?).2 := by
    rw [index]
    cases tracer.position? with
    | none => simp [Mask.searchPixel, Mask.index]
    | some position => rfl
  rw [hindex]
  refine ⟨Mask.index_lt_size hcontains, (Mask.natCast_index hcontains).symm, ?_⟩
  rw [← Int.natCast_emod, Mask.index_mod_width hcontains, Int.toNat_of_nonneg hcontains.1]

theorem checkedNextOutermost?_eq (h : tracer.IsSound) {cells : Cells}
    (hmemory : tracer.memory = .filled cells) :
    tracer.checkedNextOutermost? cells = some (tracer.nextOutermost cells) := by
  rw [checkedNextOutermost?, nextOutermost]
  split
  · rfl
  · next hsize =>
    obtain ⟨hlt, hnumber, hcolumn⟩ := h.index_eq hsize
    have hcells := h.size_filled hmemory
    have hmarked := Cells.checkedIsMarked?_natCast (hcells.symm ▸ hlt)
    have hfill := Cells.checkedFillFrom?_eq hcells tracer.mask.size hlt
    rw [← hcolumn] at hfill
    simp only [hnumber, hmarked, hfill, Option.bind_eq_bind, Option.bind_some]
    split
    · cases hfound : (cells.fillFrom tracer.mask tracer.mask.size tracer.index).2 with
      | none => rfl
      | some found =>
        have hends := Cells.ends_fillFrom hsize cells tracer.index
        have hfoundLt := ((Cells.of_ends hends).2 found hfound).2
        simp only [Option.map_some, Mask.checkedSide?_eq hfoundLt, Option.bind_some]
        rfl
    · exact h.checkedNextSingle?_eq

theorem checkedNextBoundary?_eq (h : tracer.IsSound) :
    tracer.checkedNextBoundary? = some tracer.nextBoundary := by
  rw [checkedNextBoundary?, nextBoundary]
  cases hmemory : tracer.memory with
  | nothing =>
    rw [h.checkedNextSingle?_eq]
    rfl
  | brackets pair active level =>
    simp only [h.checkedNextUntraced?_eq hmemory]
    rfl
  | filled cells =>
    simp only [h.checkedNextOutermost?_eq hmemory]
    rfl

end IsSound

end Tracer

end ContourTracing
