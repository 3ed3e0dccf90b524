import ContourTracing.Session.Object

/-!
# Sessions

In a session objects have names. An object refers to others by their number, so that a name that
is given again does not change what was built before. Buffers may be shared: a tracer takes
their cells before each operation and puts them back afterwards.
-/

namespace ContourTracing

structure Session where
  objects : Array SessionObject
  names : List (String × Nat)

namespace Session

def empty : Session :=
  ⟨#[], []⟩

variable (session : Session)

def find? (name : String) : Option Nat :=
  (session.names.find? fun entry ↦ entry.1 == name).map (·.2)

/-- Gives a name to a new object; it hides an older object of the name. -/
def define (name : String) (object : SessionObject) : Session :=
  ⟨session.objects.push object, (name, session.objects.size) :: session.names⟩

def update (number : Nat) (object : SessionObject) : Session :=
  ⟨session.objects.setIfInBounds number object, session.names⟩

def object? (name : String) : Option SessionObject :=
  (session.find? name).bind (session.objects[·]?)

/-- The context of a name and its number. -/
def cancellation (name : String) : Except Fault (Nat × Cancellation) :=
  match session.find? name with
  | none => .error (.misuse .noObject)
  | some number =>
    match session.objects[number]? with
    | some (.context cancellation) => .ok (number, cancellation)
    | _ => .error (.misuse .wrongObject)

/-! ## Shared buffers -/

def cells? (number : Nat) : Option Cells :=
  match session.objects[number]? with
  | some (.array array) => some array.cells
  | _ => none

def putCells (number : Nat) (cells : Cells) : Session :=
  match session.objects[number]? with
  | some (.array array) => session.update number (.array { array with cells })
  | _ => session

/-- The tracer with the present cells of its buffers. -/
def load (tracer : Tracer) (buffers : BufferUse) : Tracer :=
  let present (buffer : Option Nat) (cells : Cells) : Cells :=
    (buffer.bind session.cells?).getD cells
  match buffers, tracer.memory with
  | .pair first second, .brackets pair active level =>
    let pair := ⟨present first pair.first, pair.second.map (present second)⟩
    { tracer with memory := .brackets pair active level }
  | .one buffer, .filled cells =>
    { tracer with memory := .filled (present (some buffer) cells) }
  | _, _ => tracer

/-- The session after a tracer has changed the cells of its buffers. -/
def store (tracer : Tracer) (buffers : BufferUse) : Session :=
  let put (session : Session) (buffer : Option Nat) (cells : Option Cells) : Session :=
    match buffer, cells with
    | some number, some cells => session.putCells number cells
    | _, _ => session
  match buffers, tracer.memory with
  | .pair first second, .brackets pair _ _ =>
    put (put session first (some pair.first)) second pair.second
  | .one buffer, .filled cells => put session (some buffer) (some cells)
  | _, _ => session

/-! ## Stacks -/

/-- The layers from an object inward and the number of the tracer below them. Objects refer to
older ones only, so that the number of objects bounds the depth. -/
def descend : Nat → Nat → Option (List (Nat × Layer) × Nat)
  | 0, _ => none
  | fuel + 1, number =>
    match session.objects[number]? with
    | some (.tracer _ _) => some ([], number)
    | some (.layer layer inner) => do
      let (layers, base) ← descend fuel inner
      return ((number, layer) :: layers, base)
    | _ => none

/-- The stack whose outermost part is the given object. -/
def stackAt? (number : Nat) : Option Stack := do
  let (layers, base) ← session.descend (session.objects.size + 1) number
  match session.objects[base]? with
  | some (.tracer tracer buffers) => return ⟨layers.map (·.2), session.load tracer buffers⟩
  | _ => none

/-- The stack of a name and the number of its outermost part. -/
def stack (name : String) : Except Fault (Nat × Stack) :=
  match session.find? name with
  | none => .error (.misuse .noObject)
  | some number =>
    match session.stackAt? number with
    | some stack => .ok (number, stack)
    | none => .error (.misuse .wrongObject)

/-- The session after the stack of an object has changed. -/
def putStack (number : Nat) (stack : Stack) : Session :=
  match session.descend (session.objects.size + 1) number with
  | none => session
  | some (layers, base) =>
    let session := (layers.zip stack.layers).foldl
      (fun session ((number, _), layer) ↦
        match session.objects[number]? with
        | some (.layer _ inner) => session.update number (.layer layer inner)
        | _ => session)
      session
    match session.objects[base]? with
    | some (.tracer _ buffers) =>
      (session.store stack.tracer buffers).update base (.tracer stack.tracer buffers)
    | _ => session

end Session

end ContourTracing
