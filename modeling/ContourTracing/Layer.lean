import ContourTracing.Tracer.NextBoundary

/-!
# Layers around a tracer

A tracer may be wrapped in layers that pass every call on to what they wrap. Whenever a layer has
moved what it wraps to a new start, it resets its own counters and, once more, those of all
layers below. Every layer counts the resets that reached it, and a counting layer the rotations
among the steps that went through it as well.
-/

namespace ContourTracing

inductive Layer where
  | plain (resets : Nat)
  | counting (rotations resets : Nat)
deriving DecidableEq, Repr

namespace Layer

/-- A layer that is put around something. -/
def new (isCounting : Bool) : Layer :=
  if isCounting then counting 0 0 else plain 0

def resets : Layer → Nat
  | plain resets | counting _ resets => resets

def reset : Layer → Layer
  | plain resets => plain (resets + 1)
  | counting _ resets => counting 0 (resets + 1)

/-- The layer after a call of `next` after which the given step is the last one. -/
def afterStep (layer : Layer) (lastStep : Option Step) : Layer :=
  match layer with
  | plain resets => plain resets
  | counting rotations resets =>
    counting (rotations + if lastStep.any Step.isRotation then 1 else 0) resets

end Layer

/-- A tracer within its layers, the outermost layer first. -/
structure Stack where
  layers : List Layer
  tracer : Tracer

namespace Stack

def bare (tracer : Tracer) : Stack :=
  ⟨[], tracer⟩

def wrap (layer : Layer) (stack : Stack) : Stack :=
  ⟨layer :: stack.layers, stack.tracer⟩

variable (stack : Stack)

def isFinished : Bool :=
  stack.tracer.isFinished

def resetCounters : Stack :=
  ⟨stack.layers.map Layer.reset, stack.tracer.resetCounters⟩

/-- The layers after the outermost one has been moved to a new start: every layer resets itself
and all layers below it, from the inside to the outside. -/
def resetAfterMove : List Layer → List Layer
  | [] => []
  | layer :: inner => layer.reset :: (resetAfterMove inner).map Layer.reset

def goTo (x y : Int) (side : Side) : Except Fault Stack :=
  match stack.tracer.goTo x y side with
  | .ok tracer => .ok ⟨resetAfterMove stack.layers, tracer⟩
  | .error fault => .error fault

def nextBoundary : Bool × Stack :=
  let (found, tracer) := stack.tracer.nextBoundary
  (found, ⟨resetAfterMove stack.layers, tracer⟩)

def next (stack : Stack) : Except Fault Stack :=
  let ⟨layers, tracer⟩ := stack
  match tracer.next with
  | .ok tracer => .ok ⟨layers.map (Layer.afterStep · tracer.lastStep?), tracer⟩
  | .error fault => .error fault

end Stack

end ContourTracing
