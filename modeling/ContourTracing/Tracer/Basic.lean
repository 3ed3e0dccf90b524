import ContourTracing.Brackets
import ContourTracing.Fault
import ContourTracing.Tally
import ContourTracing.Walk

/-!
# Tracers

A tracer stands on a side of a pixel of its mask and follows the boundary there step by step
until it is back at its start. It keeps a tally of the steps and, if its mode asks for it, marks
the vertical sides on which it arrives, so that the search for the next boundary knows them.
-/

namespace ContourTracing

/-- Where a tracer was put, where it is now, and the step that led there, if it has moved. -/
structure Placement where
  start : Position
  current : Position
  lastStep : Option Step
deriving DecidableEq, Repr

namespace Placement

def initial (position : Position) : Placement :=
  ⟨position, position, none⟩

/-- A boundary is finished when the start is reached again by a step. -/
def isFinished (placement : Placement) : Bool :=
  placement.lastStep.isSome && placement.current == placement.start

end Placement

/-- What a tracer remembers of the boundaries that it has traced: nothing, their brackets with
the kind of the current boundary and its nesting level, or the cells of traced objects. -/
inductive Memory where
  | nothing
  | brackets (pair : BracketPair) (active : BoundaryKind) (level : Int)
  | filled (cells : Cells)

namespace Memory

/-- Marks the bracket of a position on which the tracer has arrived. -/
def record (memory : Memory) (mask : Mask) (position : Position) : Memory :=
  match memory with
  | nothing => nothing
  | brackets pair active level => brackets (pair.putBracket mask active position) active level
  | filled cells => filled (cells.putBracket mask position)

def mode : Memory → ScanMode
  | nothing => .single
  | brackets .. => .all
  | filled _ => .main

def level : Memory → Int
  | brackets _ _ level => level
  | nothing | filled _ => 0

/-- The memory of a new tracer without buffers from outside. -/
def fresh (size : Nat) : ScanMode → Memory
  | .single => nothing
  | .all => brackets ⟨Cells.blank size, some (Cells.blank size)⟩ .external 0
  | .main => filled (Cells.blank size)

end Memory

/-- `policy` is the matrix's policy for reads outside; `interval` and `line` are the defaults for
scans and measurements. -/
structure Tracer where
  mask : Mask
  policy : Value
  connectivity : Connectivity
  interval : Nat
  line : ContourLine
  placement : Option Placement
  tally : Tally
  memory : Memory

namespace Tracer

/-- A tracer that stands nowhere yet. -/
def new (mask : Mask) (policy : Value) (connectivity : Connectivity) (memory : Memory) :
    Tracer where
  mask := mask
  policy := policy
  connectivity := connectivity
  interval := 1
  line := .corners
  placement := none
  tally := {}
  memory := memory

variable (tracer : Tracer)

def position? : Option Position :=
  tracer.placement.map (·.current)

def lastStep? : Option Step :=
  tracer.placement.bind (·.lastStep)

def isFinished : Bool :=
  match tracer.placement with
  | some placement => placement.isFinished
  | none => false

/-- The raster number of the current pixel; a tracer that stands nowhere counts from zero. -/
def index : Nat :=
  match tracer.position? with
  | some position => tracer.mask.index position.x position.y
  | none => 0

def resetCounters : Tracer :=
  { tracer with tally := {} }

/-- Puts the tracer on a side, with no step made and nothing counted. -/
def place (position : Position) : Tracer :=
  { tracer with placement := some (Placement.initial position), tally := {} }

def checkCoordinate (axis : String) (value : Int) (dimension : Nat) : Except Fault Unit :=
  if value < 0 then .error (.bounds (.coordinateBelow axis value))
  else if dimension ≤ value then .error (.bounds (.coordinateAbove axis value dimension))
  else .ok ()

/-- Puts the tracer on any side of a pixel of the mask. -/
def goTo (x y : Int) (side : Side) : Except Fault Tracer := do
  checkCoordinate "x" x tracer.mask.width
  checkCoordinate "y" y tracer.mask.height
  return tracer.place ⟨x, y, side⟩

@[simp]
theorem position?_place (position : Position) :
    (tracer.place position).position? = some position := rfl

theorem checkCoordinate_eq_ok_iff {axis : String} {value : Int} {dimension : Nat} :
    checkCoordinate axis value dimension = .ok () ↔ 0 ≤ value ∧ value < dimension := by
  unfold checkCoordinate
  split
  · simp; omega
  · split <;> simp <;> omega

theorem goTo_eq_ok_iff {x y : Int} {side : Side} {result : Tracer} :
    tracer.goTo x y side = .ok result ↔
      tracer.mask.Contains x y ∧ result = tracer.place ⟨x, y, side⟩ := by
  have hx := @checkCoordinate_eq_ok_iff "x" x tracer.mask.width
  have hy := @checkCoordinate_eq_ok_iff "y" y tracer.mask.height
  unfold goTo Mask.Contains
  cases h : checkCoordinate "x" x tracer.mask.width with
  | error fault =>
    simp only [h] at hx
    simp [bind, Except.bind]
    grind
  | ok _ =>
    cases h' : checkCoordinate "y" y tracer.mask.height with
    | error fault => simp [bind, Except.bind]; grind
    | ok _ => simp [bind, Except.bind, pure, Except.pure]; grind

/-- Makes one step from a placement. -/
def advance (tracer : Tracer) (placement : Placement) : Tracer :=
  let step := tracer.mask.chooseStep tracer.connectivity placement.current
  let position := placement.current.move step
  let ⟨mask, policy, connectivity, interval, line, _, tally, memory⟩ := tracer
  { mask, policy, connectivity, interval, line
    placement := some ⟨placement.start, position, some step⟩
    tally := tally.record step position
    memory := memory.record mask position }

theorem position?_advance (placement : Placement) :
    (tracer.advance placement).position? =
      some (tracer.mask.successor tracer.connectivity placement.current) := rfl

/-- One step along the boundary; a finished boundary is left as it is. -/
def next (tracer : Tracer) : Except Fault Tracer :=
  match tracer.placement with
  | none => .error (.state .notPositioned)
  | some placement => .ok (if placement.isFinished then tracer else tracer.advance placement)

end Tracer

end ContourTracing
