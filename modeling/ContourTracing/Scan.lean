import ContourTracing.Context
import ContourTracing.Contour
import ContourTracing.Interval

/-!
# Scans of whole boundaries

A scan makes steps until the boundary is finished; a trace does the same and collects the contour
point after every step. Both ask the context after every `interval` steps. The walk of a tracer
visits each side of each pixel at most once before it returns to its start or never does, so
after that many steps beyond the last change of the context's answers nothing new can happen.
-/

namespace ContourTracing

/-- What came of a scan: its result, the steps made during it, and the stack afterwards. -/
structure ScanRun (α : Type) where
  result : Except Fault α
  steps : Nat
  stack : Stack

namespace Stack

/-- A number of steps after which a walk has ended if it ever ends. -/
def patience (stack : Stack) (context : Context) (interval : Nat) : Nat :=
  4 * stack.tracer.mask.size + 1 + (context.settled + 1) * interval

/-- What the context says after `steps` steps. -/
def checkAfter (context : Context) (interval steps : Nat) : Option ContextFault :=
  if steps % interval = 0 then context.answer (steps / interval - 1) else none

/-- Walks on after `steps` steps, making at most `fuel` more. -/
def scanFrom (context : Context) (interval : Nat) : Nat → Nat → Stack → ScanRun Unit
  | 0, steps, stack => ⟨if stack.isFinished then .ok () else .error .endless, steps, stack⟩
  | fuel + 1, steps, stack =>
    if stack.isFinished then ⟨.ok (), steps, stack⟩
    else
      match stack.next with
      | .error fault => ⟨.error fault, steps, stack⟩
      | .ok stack =>
        match checkAfter context interval (steps + 1) with
        | some cause => ⟨.error (.context cause), steps + 1, stack⟩
        | none => scanFrom context interval fuel (steps + 1) stack

/-- Makes steps until the boundary is finished and counts the steps since the last reset. -/
def scan (stack : Stack) (context : Context) (interval : Nat) : ScanRun Nat :=
  let run := stack.scanFrom context interval (stack.patience context interval) 0
  ⟨run.result.map fun _ ↦ run.stack.tracer.tally.steps, run.steps, run.stack⟩

/-- Walks on with the points collected so far, making at most `fuel` more steps. -/
def traceFrom (line : Value) (context : Context) (interval : Nat) :
    Nat → Array Point → Stack → ScanRun (List Point)
  | 0, points, stack =>
    ⟨if stack.isFinished then .ok points.toList else .error .endless, points.size, stack⟩
  | fuel + 1, points, stack =>
    if stack.isFinished then ⟨.ok points.toList, points.size, stack⟩
    else
      match stack.next with
      | .error fault => ⟨.error fault, points.size, stack⟩
      | .ok stack =>
        match stack.tracer.contourPoint line with
        | .error fault => ⟨.error fault, points.size, stack⟩
        | .ok point =>
          let points := points.push point
          match checkAfter context interval points.size with
          | some cause => ⟨.error (.context cause), points.size, stack⟩
          | none => traceFrom line context interval fuel points stack

/-- Makes steps until the boundary is finished and collects the contour point after each. -/
def trace (stack : Stack) (line : Value) (context : Context) (interval : Nat) :
    ScanRun (List Point) :=
  stack.traceFrom line context interval (stack.patience context interval) #[]

end Stack

/-- The warning that an interrupted scan leaves; other ends of a scan leave none. -/
def ScanRun.warnings {α : Type} (run : ScanRun α) : List String :=
  match run.result, run.stack.tracer.position? with
  | .error (.context cause), some position =>
    if cause.isInterruption then
      ["Boundary scan interrupted after " ++ toString run.steps ++ " steps at (" ++
        toString position.x ++ ", " ++ toString position.y ++ ", " ++ position.side.label ++ ")"]
    else []
  | _, _ => []

end ContourTracing
