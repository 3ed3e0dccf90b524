import ContourTracing.Tracer.Basic

/-!
# The search for the next boundary

All searches go forward in raster order from the current position. The single mode stops at the
next run edge. The mode for all boundaries passes over edges that carry a bracket, counting the
nesting level up where a traced boundary is entered and down where it is left, and stops at the
first edge without one. The main mode fills the traced object between its brackets, row by row,
and stops at the first set pixel that was not filled.
-/

namespace ContourTracing

/-- A search along the run edges: the position where it began, the last edge that it came to, if
any, and the nesting level there. -/
structure Sweep where
  start : Option Position
  edge : Option Position
  level : Int

namespace BracketPair

/-- The nesting level after an edge that carries a bracket. -/
def levelAcross (side : Side) (external : Bool) (level : Int) : Int :=
  if (side == .left) == external then level + 1 else level - 1

/-- Goes to the first run edge without a bracket, in at most `fuel` edges. An edge at the end of
a row leaves everything that was entered in the row. -/
def sweep (pair : BracketPair) (mask : Mask) : Nat → Sweep → Bool × Sweep
  | 0, s => (false, s)
  | fuel + 1, s =>
    match mask.nextRunEdge (s.edge.or s.start) with
    | none => (false, s)
    | some edge =>
      if edge.side = .right ∧ edge.x + 1 = mask.width then
        sweep pair mask fuel ⟨s.start, some edge, 0⟩
      else
        let external := (pair.cells .external).hasBracket mask edge
        let internal := (pair.cells .internal).hasBracket mask edge
        if external || internal then
          sweep pair mask fuel ⟨s.start, some edge, levelAcross edge.side external s.level⟩
        else (true, ⟨s.start, some edge, s.level + 1⟩)

end BracketPair

namespace Cells

/-- Fills the object at a marked cell up to its closing bracket, which is cleared, or else to the
end of the row, and goes on with the next set pixel as long as that is marked. The result is the
first set pixel that is not, if there is one, in at most `fuel` pixels. -/
def fillFrom (mask : Mask) : Nat → Cells → Nat → Cells × Option Nat
  | 0, cells, _ => (cells, none)
  | fuel + 1, cells, index =>
    let rowEnd := (index / mask.width + 1) * mask.width
    let closing := Search.first cells.isMarked (index + 1) rowEnd
    let inside := closing.getD rowEnd - (index + 1)
    let cells := match closing with
      | some bracket => cells.clear bracket
      | none => cells
    let cells := cells.fill (index + 1) inside
    match Search.first mask.bit (index + inside + 1) mask.size with
    | none => (cells, none)
    | some found =>
      if cells.isMarked found then fillFrom mask fuel cells found else (cells, some found)

end Cells

namespace BoundaryKind

def ofSide (side : Side) : BoundaryKind :=
  if side = .left then .external else .internal

end BoundaryKind

namespace Tracer

variable (tracer : Tracer)

/-- Goes to the next run edge. -/
def nextSingle : Bool × Tracer :=
  match tracer.mask.nextRunEdge tracer.position? with
  | some edge => (true, tracer.place edge)
  | none => (false, tracer)

/-- Goes to the next run edge that no traced boundary has marked. -/
def nextUntraced (pair : BracketPair) (active : BoundaryKind) (level : Int) : Bool × Tracer :=
  let edges := 2 * tracer.mask.size
  let (found, s) := pair.sweep tracer.mask (edges + 1) ⟨tracer.position?, none, level⟩
  match s.edge with
  | some edge =>
    let active := if found then BoundaryKind.ofSide edge.side else active
    (found, { tracer.place edge with memory := .brackets pair active s.level })
  | none => (found, { tracer with memory := .brackets pair active s.level })

/-- Goes to the next object outside of those that were traced. -/
def nextOutermost (cells : Cells) : Bool × Tracer :=
  if tracer.mask.size = 0 then (false, tracer)
  else if cells.isMarked tracer.index then
    let (cells, found) := cells.fillFrom tracer.mask tracer.mask.size tracer.index
    match found with
    | some index =>
      (true, { tracer.place (tracer.mask.atSlot (2 * index)) with memory := .filled cells })
    | none => (false, { tracer with memory := .filled cells })
  else tracer.nextSingle

/-- Goes to the start of the next boundary and resets the counters; tells whether there is one. -/
def nextBoundary : Bool × Tracer :=
  let (found, tracer) := match tracer.memory with
    | .nothing => tracer.nextSingle
    | .brackets pair active level => tracer.nextUntraced pair active level
    | .filled cells => tracer.nextOutermost cells
  (found, tracer.resetCounters)

end Tracer

end ContourTracing
