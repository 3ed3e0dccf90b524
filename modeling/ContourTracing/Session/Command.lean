import ContourTracing.Matrix.Form
import ContourTracing.Session.Basic

/-!
# Commands of a session

A command makes a named object or works on one. What a command answers, the warnings it leaves
and the status of the stack it concerns are its reply.
-/

namespace ContourTracing

/-- The context of a scan: none, a context of the session, or one made for this scan alone. -/
inductive ContextChoice where
  | none
  | named (name : String)
  | given (context : Context)

/-- A buffer to be made: an array of zeros with elements set in it, or any other value. -/
inductive BufferForm where
  | array (dimensions : List Int) (kind : ElementKind) (order : CellOrder)
      (elements : List (Int × Value))
  | other (value : Value)

def BufferForm.object : BufferForm → Except Fault SessionObject
  | array dimensions kind order elements =>
    return .array (← ArrayBuffer.make dimensions kind order elements)
  | other value => .ok (.value value)

inductive Command where
  | makeMatrix (name : String) (form : MatrixForm) (policy : Option Value)
  | makeBuffer (name : String) (form : BufferForm)
  | makeContext (name : String) (timeout : Value)
  | makeTracer (name : String) (mode : ScanMode) (matrix : Option String) (connectivity : Value)
      (buffers : List (Option String))
  | makeFromSettings (name : String) (matrix : Option String) (settings : Value)
  | makeLayer (name : String) (isCounting : Bool) (inner : Option String)
  | cancel (name : String)
  | check (name : String)
  | isCancelled (name : String)
  | readBuffer (name : String)
  | perform (name : String) (operation : Operation)
  | scan (name : String) (context : ContextChoice) (interval : Value)
  | trace (name : String) (line : Value) (context : ContextChoice) (interval : Value)
  | goToSame (name other : String)
  | sameState (name other : String)
  | isParent (name other : String)

structure Reply where
  result : Except Fault Answer
  warnings : List String
  status : Option Status

namespace Command

def name : Command → String
  | makeMatrix name .. | makeBuffer name .. | makeContext name .. | makeTracer name ..
  | makeFromSettings name .. | makeLayer name .. | cancel name | check name | isCancelled name
  | readBuffer name | perform name .. | scan name .. | trace name .. | goToSame name ..
  | sameState name .. | isParent name .. => name

end Command

namespace Session

variable (session : Session)

/-- Defines an object if it can be made. -/
def make (name : String) (object : Except Fault SessionObject) : Except Fault Answer × Session :=
  match object with
  | .ok object => (.ok (.flag true), session.define name object)
  | .error fault => (.error fault, session)

def sourceOf (name : Option String) : MatrixSource :=
  ((name.bind session.object?).map SessionObject.source).getD (.nested .null)

/-- A buffer that is not the absent value, and its number. -/
def bufferOf (name : Option String) : Option (Nat × Buffer) := do
  let number ← session.find? (← name)
  let object ← session.objects[number]?
  return (number, ← object.buffer?)

/-- The buffers that a mode takes, by number and as they are. -/
def bufferUse (mode : ScanMode) (names : List (Option String)) : BufferUse × BufferChoice :=
  let first := session.bufferOf (names[0]?).join
  let second := session.bufferOf (names[1]?).join
  match mode with
  | .single => (.own, .none)
  | .all =>
    let isShared := first.isSome && first.map (·.1) == second.map (·.1)
    (.pair (first.map (·.1)) (second.map (·.1)),
      .pair (first.map (·.2)) (second.map (·.2)) isShared)
  | .main => (first.elim .own (.one ·.1), .one (first.map (·.2)))

/-- A new tracer; a mode is given no more buffers than it takes. -/
def makeTracer (mode : ScanMode) (matrix : Option String) (connectivity : Value)
    (buffers : List (Option String)) : Except Fault SessionObject :=
  if buffers.length ≤ mode.bufferCount then do
    let (use, choice) := session.bufferUse mode buffers
    return .tracer (← Tracer.make (session.sourceOf matrix) connectivity choice) use
  else .error (.misuse .tooManyBuffers)

def contextOf : ContextChoice → Context
  | .none => .silent
  | .given context => context
  | .named name =>
    match session.cancellation name with
    | .ok (_, cancellation) => cancellation.context
    | .error _ => .silent

/-- Performs an operation on the stack of a name. -/
def performOn (name : String) (operation : Operation) :
    (Except Fault Answer × List String) × Session :=
  match session.stack name with
  | .error fault => ((.error fault, []), session)
  | .ok (number, stack) =>
    let outcome := stack.perform operation
    ((outcome.result, outcome.warnings), session.putStack number outcome.stack)

/-- The position and the last step of a stack. -/
def stateOf (name : String) : Except Fault (Position × Option Step) := do
  let (_, stack) ← session.stack name
  return (← stack.tracer.position, stack.tracer.lastStep?)

/-- The cells that are not blank, each with its raster number and its element. -/
def readCells (buffer : ArrayBuffer) : List Answer :=
  buffer.cells.toList.zipIdx.filterMap fun (cell, index) ↦
    let element (value : Float) : Answer :=
      match buffer.kind with
      | .real => .measure value
      | .truth | .byte | .word => .number value.toInt64.toInt
    match cell with
    | .blank => none
    | .mark => some (.row [.number index, element 1])
    | .foreign value => some (.row [.number index, element value])

/-- The result of a command and the session after it. -/
def run (session : Session) : Command → (Except Fault Answer × List String) × Session
  | .makeMatrix name form policy =>
    let object := do
      let source ← form.source
      match policy with
      | some policy => return .matrix (← source.toMatrix policy)
      | none => return .ofSource source
    quiet (session.make name object)
  | .makeBuffer name form => quiet (session.make name form.object)
  | .makeContext name timeout =>
    quiet (session.make name ((Cancellation.make timeout).map .context))
  | .makeTracer name mode matrix connectivity buffers =>
    quiet (session.make name (session.makeTracer mode matrix connectivity buffers))
  | .makeFromSettings name matrix settings =>
    let tracer := do Tracer.ofSettings (session.sourceOf matrix) (← Settings.ofArguments settings)
    quiet (session.make name (tracer.map (.tracer · .own)))
  | .makeLayer name isCounting inner =>
    let object := match inner.bind session.find? with
      | some number => .ok (.layer (.new isCounting) number)
      | none => .error (.argument .missingParent)
    quiet (session.make name object)
  | .cancel name =>
    match session.cancellation name with
    | .error fault => quiet (.error fault, session)
    | .ok (number, cancellation) =>
      quiet (.ok .none, session.update number (.context cancellation.cancel))
  | .check name =>
    let result := do
      let (_, cancellation) ← session.cancellation name
      match cancellation.fault? with
      | some cause => .error (.context cause)
      | none => .ok Answer.none
    quiet (result, session)
  | .isCancelled name =>
    let result := do
      let (_, cancellation) ← session.cancellation name
      return Answer.flag cancellation.fault?.isSome
    quiet (result, session)
  | .readBuffer name =>
    match session.object? name with
    | some (.array array) => quiet (.ok (.row (readCells array)), session)
    | some _ => quiet (.error (.misuse .wrongObject), session)
    | none => quiet (.error (.misuse .noObject), session)
  | .perform name operation => session.performOn name operation
  | .scan name context interval =>
    session.performOn name (.scan (session.contextOf context) interval)
  | .trace name line context interval =>
    session.performOn name (.trace line (session.contextOf context) interval)
  | .goToSame name other =>
    match session.stateOf other with
    | .error fault => quiet (.error fault, session)
    | .ok (position, _) =>
      session.performOn name
        (.goTo (.int position.x) (.int position.y) (.member (.side position.side)))
  | .sameState name other =>
    let result := do
      let state ← session.stateOf name
      let state' ← session.stateOf other
      return Answer.flag (state == state')
    quiet (result, session)
  | .isParent name other =>
    match session.object? name with
    | some (.layer _ inner) => quiet (.ok (.flag (session.find? other == some inner)), session)
    | _ => quiet (.error (.misuse .noParent), session)
where
  quiet (answer : Except Fault Answer × Session) :
      (Except Fault Answer × List String) × Session :=
    ((answer.1, []), answer.2)

/-- The reply to a command, with the status of the stack that it names, and the session after
it. -/
def reply (command : Command) : Reply × Session :=
  let ((result, warnings), session) := session.run command
  let status := ((session.find? command.name).bind session.stackAt?).map Stack.status
  (⟨result, warnings, status⟩, session)

/-- The replies to commands given one after the other, each with the session after it. -/
def course (session : Session) : List Command → List (Reply × Session)
  | [] => []
  | command :: commands =>
    session.reply command :: course (session.reply command).2 commands

def replies (commands : List Command) : List Reply :=
  (session.course commands).map (·.1)

end Session

end ContourTracing
