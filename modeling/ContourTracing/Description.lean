import ContourTracing.Layer

/-!
# Descriptions of steps and tracers

A step is described by its sides, its movement and its vertex, a tracer by what there is to know
of its position, and a layer by its title in front of what it wraps.
-/

namespace ContourTracing

def Step.description (step : Step) : String :=
  let (x, y) := step.doubledVertex
  "boundary scanning step from " ++ step.oldSide.label ++ " to " ++ step.newSide.label ++ " by " ++
    toString step.dx ++ "," ++ toString step.dy ++ " (pixel vertex " ++
    Decimal.fixedRat 1 (x / 2) ++ "," ++ Decimal.fixedRat 1 (y / 2) ++ ")"

/-- How far a tracer has come with its boundary. -/
inductive Phase where
  | uninitialized
  | positioned
  | tracing
  | finished
deriving DecidableEq, Repr

def Phase.word : Phase → String
  | uninitialized => "uninitialized"
  | positioned => "positioned"
  | tracing => "tracing"
  | finished => "boundary_finished"

def Placement.phase (placement : Placement) : Phase :=
  if placement.isFinished then .finished
  else if placement.lastStep.isSome then .tracing
  else .positioned

/-- The position and, as far as there are any, the last step and the nesting level. -/
def Placement.description (placement : Placement) (level : Int) : String :=
  let position := placement.current
  let lastStep := match placement.lastStep with
    | some step => ", last step: " ++ step.description
    | none => ""
  let nesting := if level = 0 then "" else ", nesting level = " ++ toString level
  "x = " ++ toString position.x ++ ", y = " ++ toString position.y ++ ", side = " ++
    position.side.label ++ lastStep ++ nesting

namespace Tracer

variable (tracer : Tracer)

def phase : Phase :=
  match tracer.placement with
  | some placement => placement.phase
  | none => .uninitialized

def description : String :=
  let position := match tracer.placement with
    | some placement => placement.description tracer.memory.level
    | none => "not initialized yet"
  "2D scanner (" ++ position ++ "; " ++ toString (tracer.connectivity.neighbourCount 2) ++
    "-connectivity)"

end Tracer

def Layer.title : Layer → String
  | plain _ => "BoundaryScannerWrapper"
  | counting .. => "StepCounter"

def Stack.description (stack : Stack) : String :=
  stack.layers.foldr (fun layer text ↦ layer.title ++ " of " ++ text) stack.tracer.description

end ContourTracing
