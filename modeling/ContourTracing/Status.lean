import ContourTracing.Description

/-!
# Status of a tracer

All that can be observed of a tracer at one moment: where it stands, what it has counted, and the
counters of the outermost layer if that one is a counting layer.
-/

namespace ContourTracing

structure Status where
  phase : Phase
  position : Option Position
  lastStep : Option Step
  atBorder : Bool
  index : Nat
  level : Int
  tally : Tally
  counters : Option (Nat × Nat)
deriving DecidableEq, Repr

/-- The side of the position lies on the border of the mask. -/
def Mask.isAtBorder (mask : Mask) (position : Position) : Bool :=
  match position.side with
  | .left => position.x == 0
  | .top => position.y == 0
  | .right => position.x + 1 == mask.width
  | .bottom => position.y + 1 == mask.height

namespace Layer

def counters : Layer → Option (Nat × Nat)
  | plain _ => none
  | counting rotations resets => some (rotations, resets)

end Layer

def Stack.status (stack : Stack) : Status where
  phase := stack.tracer.phase
  position := stack.tracer.position?
  lastStep := stack.tracer.lastStep?
  atBorder := stack.tracer.position?.any stack.tracer.mask.isAtBorder
  index := stack.tracer.index
  level := stack.tracer.memory.level
  tally := stack.tracer.tally
  counters := stack.layers.head?.bind Layer.counters

namespace Tracer

variable (tracer : Tracer)

def position : Except Fault Position :=
  match tracer.position? with
  | some position => .ok position
  | none => .error (.state .notPositioned)

def lastStep : Except Fault Step :=
  match tracer.lastStep? with
  | some step => .ok step
  | none => .error (.state .noSteps)

/-- The boundary at which a search has put the tracer belongs to a hole. -/
def isInternal : Except Fault Bool := do
  return (← tracer.position).side == .right

/-- The pixel under the tracer, or the first one if it stands nowhere. -/
def pixel : Except Fault Bool :=
  let (x, y) := match tracer.position? with
    | some position => (position.x, position.y)
    | none => (0, 0)
  if tracer.mask.Contains x y then .ok (tracer.mask.isSet x y)
  else if tracer.policy.policy? = some .strict then
    .error (.bounds (.elementOutside (.int x) (.int y) tracer.mask.width tracer.mask.height))
  else .ok false

end Tracer

end ContourTracing
