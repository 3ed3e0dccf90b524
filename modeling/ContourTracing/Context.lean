import ContourTracing.Fault

/-!
# Contexts of scans

A scan asks its context from time to time whether to go on. For one scan, a context is nothing
but its answers to the first, the second and every further check. After finitely many checks the
answers stay the same, which bounds how long a scan has to wait for them.
-/

namespace ContourTracing

/-- `answer i` is what the check numbered `i` stops the scan with, and all checks from `settled`
on answer alike. -/
structure Context where
  answer : Nat → Option ContextFault
  settled : Nat

namespace Context

/-- The context that never stops a scan. -/
def silent : Context :=
  ⟨fun _ ↦ none, 0⟩

/-- The context that stops a scan at every check. -/
def stopping (cause : ContextFault) : Context :=
  ⟨fun _ ↦ some cause, 0⟩

/-- The context that stops a scan at the check with the given ordinal number and at all later
ones. -/
def countdown (checks : Int) (cause : ContextFault) : Context :=
  ⟨fun i ↦ if checks ≤ i + 1 then some cause else none, checks.toNat⟩

end Context

/-- A switch that stops scans once it is set, or once its deadline has passed. -/
structure Cancellation where
  cancelled : Bool
  expired : Bool
deriving DecidableEq, Repr

namespace Cancellation

/-- A cancellation with an optional time limit in seconds. A limit below a microsecond has passed
at once; any other limit lies beyond the end of every scan. -/
def make (timeout : Value) : Except Fault Cancellation :=
  match timeout with
  | .null => .ok ⟨false, false⟩
  | .bool value => .ok ⟨false, !value⟩
  | .int value =>
    if value < 0 then .error (.argument (.timeoutRange timeout))
    else if Decimal.isInRange value then .ok ⟨false, value == 0⟩
    else .error (.misuse .tooLarge)
  | .float value =>
    if value < 0 then .error (.argument (.timeoutRange timeout)) else .ok ⟨false, value < 1e-6⟩
  | _ => .error (.misuse .incomparable)

def cancel (cancellation : Cancellation) : Cancellation :=
  { cancellation with cancelled := true }

/-- What a check stops a scan with; a cancellation comes before an expiry. -/
def fault? (cancellation : Cancellation) : Option ContextFault :=
  if cancellation.cancelled then some .cancelled
  else if cancellation.expired then some .deadline
  else none

def context (cancellation : Cancellation) : Context :=
  match cancellation.fault? with
  | some cause => .stopping cause
  | none => .silent

end Cancellation

end ContourTracing
