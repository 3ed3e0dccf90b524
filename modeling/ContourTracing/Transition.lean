import ContourTracing.Fault

/-!
# Steps from given sides and movements

The sides between which a step is looked up may be values of any kind. Only two sides that
follow one another have a step between them; values with parts are never looked up at all. A
step can also be made from a movement, which has to be within the floating-point range.
-/

namespace ContourTracing

/-- Lists and records have parts. -/
def Value.hasParts : Value → Bool
  | list _ | record _ => true
  | _ => false

/-- The step from one side to another. -/
def Step.ofValues (oldSide newSide : Value) : Except Fault Step :=
  if oldSide.hasParts || newSide.hasParts then .error (.misuse .incomparable)
  else
    match oldSide.side?, newSide.side? with
    | some oldSide, some newSide =>
      match between? oldSide newSide with
      | some step => .ok step
      | none => .error (.misuse .noTransition)
    | _, _ => .error (.misuse .noTransition)

/-- The step of a movement from one side to another. -/
def Step.make (code dx dy : Int) (oldSide newSide : Side) : Except Fault Step :=
  if Decimal.isInRange dx ∧ Decimal.isInRange dy then
    match make? code dx dy oldSide newSide with
    | some step => .ok step
    | none => .error (.misuse .noVertex)
  else .error (.misuse .tooLarge)

end ContourTracing
