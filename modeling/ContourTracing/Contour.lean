import ContourTracing.Layer

/-!
# Contour points and measurements of a tracer

A tracer that has moved defines a point of the contour. What was counted since the last reset
gives an area and a length for every style of contour line; the tracer has a default style.
-/

namespace ContourTracing

namespace ContourLine

/-- The style that a value names. -/
def ofValue (value : Value) : Except Fault ContourLine :=
  match value.line? with
  | some line => .ok line
  | none => .error (.argument (.lineUnsupported value))

/-- The style that a value names, or the default if there is no value. -/
def ofValueOr (default : ContourLine) : Value → Except Fault ContourLine
  | .null => .ok default
  | value => ofValue value

end ContourLine

namespace Tracer

variable (tracer : Tracer)

/-- The contour point of the current position. -/
def contourPoint (line : Value) : Except Fault Point :=
  match tracer.placement with
  | none => .error (.state .notPositioned)
  | some placement =>
    match placement.lastStep with
    | none => .error (.state .noSteps)
    | some step => do return (← ContourLine.ofValue line).point placement.current step

def area (line : Value) : Except Fault Rat := do
  return tracer.tally.areaOn (← ContourLine.ofValueOr tracer.line line)

def perimeter (line : Value) : Except Fault Length := do
  return tracer.tally.lengthOn (← ContourLine.ofValueOr tracer.line line)

end Tracer

end ContourTracing
