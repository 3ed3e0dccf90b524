import ContourTracing.Decimal.Report
import ContourTracing.Scan
import ContourTracing.Status

/-!
# Operations on a stack

Every call on the outermost layer is an operation. It answers or fails, may leave warnings, and
leaves the stack in a new state.
-/

namespace ContourTracing

inductive Operation where
  | nextBoundary
  | next (times : Nat)
  | goTo (x y side : Value)
  | reset
  | scan (context : Context) (interval : Value)
  | trace (line : Value) (context : Context) (interval : Value)
  | point (line : Value)
  | coordinates (line : Value)
  | area (line : Value)
  | perimeter (line : Value)
  | setInterval (value : Value)
  | setLine (value : Value)
  | defaults
  | pixel
  | x
  | y
  | side
  | lastStep
  | hasMovedPixel
  | isFinished
  | isInternal
  | snapshot
  | description
  | info

inductive Answer where
  | none
  | flag (value : Bool)
  | number (value : Int)
  | word (text : String)
  | measure (value : Float)
  | point (point : Point)
  | contour (points : List Point)
  | row (items : List Answer)

structure Outcome where
  result : Except Fault Answer
  warnings : List String
  stack : Stack

/-- The coordinate that a value gives. -/
def coordinateOfValue (axis : String) (value : Value) : Except Fault Int :=
  match value.int? with
  | some coordinate => .ok coordinate
  | none => .error (.argument (.coordinateKind axis value))

def Side.ofValue (value : Value) : Except Fault Side :=
  match value.side? with
  | some side => .ok side
  | none => .error (.argument (.sideKind value))

/-- The style of contour line that a default is set to. -/
def ContourLine.ofSetting (value : Value) : Except Fault ContourLine :=
  match value.line? with
  | some line => .ok line
  | none => .error (.argument (.lineKind value))

/-- Both coordinates with one place each. -/
def Point.text (point : Point) : String :=
  Decimal.fixedRat 1 point.1 ++ " " ++ Decimal.fixedRat 1 point.2

namespace Stack

variable (stack : Stack)

def goToValues (x y side : Value) : Except Fault Stack := do
  let side ← Side.ofValue side
  let x ← coordinateOfValue "x" x
  let y ← coordinateOfValue "y" y
  stack.goTo x y side

/-- Makes steps one after the other, up to the first that fails. -/
def nextTimes : Nat → Stack → Except Fault Unit × Stack
  | 0, stack => (.ok (), stack)
  | times + 1, stack =>
    match stack.next with
    | .ok stack => nextTimes times stack
    | .error fault => (.error fault, stack)

/-- Changes a setting of the tracer itself; layers have no settings to change. -/
def configure (stack : Stack) (change : Tracer → Except Fault Tracer) : Except Fault Stack :=
  match stack.layers with
  | [] => return bare (← change stack.tracer)
  | _ :: _ => .error (.misuse .readOnly)

/-- Performs a change that answers nothing. -/
def change (result : Except Fault Stack) : Outcome :=
  match result with
  | .ok stack => ⟨.ok .none, [], stack⟩
  | .error fault => ⟨.error fault, [], stack⟩

/-- Answers a question that changes nothing. -/
def ask (result : Except Fault Answer) : Outcome :=
  ⟨result, [], stack⟩

def snapshot : Except Fault Answer := do
  let position ← stack.tracer.position
  let lastStep := match stack.tracer.lastStep? with
    | some step => Answer.number step.code
    | none => .none
  return .row [.number position.x, .number position.y, .word position.side.label, lastStep]

def info : Answer :=
  let tracer := stack.tracer
  let mode := tracer.memory.mode
  .row [.flag (mode == .single), .flag (mode == .all), .flag (mode == .main),
    .word tracer.connectivity.label, .number tracer.mask.width, .number tracer.mask.height,
    .number tracer.mask.size, .word tracer.policy.quoted, .flag tracer.placement.isSome,
    .flag tracer.lastStep?.isSome, .flag tracer.isFinished]

def perform (stack : Stack) : Operation → Outcome
  | .nextBoundary =>
    let (found, stack) := stack.nextBoundary
    ⟨.ok (.flag found), [], stack⟩
  | .next times =>
    let (result, stack) := stack.nextTimes times
    ⟨result.map fun _ ↦ .none, [], stack⟩
  | .goTo x y side => stack.change (stack.goToValues x y side)
  | .reset => ⟨.ok .none, [], stack.resetCounters⟩
  | .scan context interval =>
    match Interval.ofValueOr stack.tracer.interval interval with
    | .error fault => stack.ask (.error fault)
    | .ok interval =>
      let run := stack.scan context interval
      ⟨run.result.map fun count ↦ .number count, run.warnings, run.stack⟩
  | .trace line context interval =>
    let line := match line with
      | .null => .member (.line stack.tracer.line)
      | line => line
    match Interval.ofValueOr stack.tracer.interval interval with
    | .error fault => stack.ask (.error fault)
    | .ok interval =>
      let run := stack.trace line context interval
      ⟨run.result.map .contour, [], run.stack⟩
  | .point line => stack.ask ((stack.tracer.contourPoint line).map .point)
  | .coordinates line =>
    stack.ask ((stack.tracer.contourPoint line).map fun point ↦
      .word (Point.text point ++ " " ++ Point.text point))
  | .area line => stack.ask ((stack.tracer.area line).map (.measure <| Decimal.ofRat ·))
  | .perimeter line => stack.ask ((stack.tracer.perimeter line).map (.measure ·.toFloat))
  | .setInterval value =>
    stack.change (stack.configure fun tracer ↦ do
      return { tracer with interval := ← Interval.ofValue value })
  | .setLine value =>
    stack.change (stack.configure fun tracer ↦ do
      return { tracer with line := ← ContourLine.ofSetting value })
  | .defaults =>
    stack.ask (.ok (.row [.number stack.tracer.interval, .word stack.tracer.line.label]))
  | .pixel => stack.ask (stack.tracer.pixel.map .flag)
  | .x => stack.ask (stack.tracer.position.map (.number ·.x))
  | .y => stack.ask (stack.tracer.position.map (.number ·.y))
  | .side => stack.ask (stack.tracer.position.map (.word ·.side.label))
  | .lastStep => stack.ask (stack.tracer.lastStep.map (.number ·.code))
  | .hasMovedPixel => stack.ask (stack.tracer.lastStep.map fun step ↦ .flag !step.isRotation)
  | .isFinished => stack.ask (.ok (.flag stack.isFinished))
  | .isInternal => stack.ask (stack.tracer.isInternal.map .flag)
  | .snapshot => stack.ask stack.snapshot
  | .description => stack.ask (.ok (.word stack.description))
  | .info => stack.ask (.ok stack.info)

end Stack

end ContourTracing
