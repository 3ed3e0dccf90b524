import ContourTracing.Operation

/-!
# Layers are transparent

A layer passes every call on to what it wraps. When it has moved it, it resets itself and all below
it once more, which changes no counters of the tracer since they are zero already. Scans and
traces ask the outermost layer step by step. In the end the tracer has done what it would have
done without any layers, and so the answers, the faults and the warnings are the same.
-/

namespace ContourTracing

namespace Stack

variable (stack : Stack) (layer : Layer)

/-- Every stack is a tracer within layers that were put around it one after the other. -/
@[elab_as_elim]
theorem wrap_induction {motive : Stack → Prop} (bare : ∀ tracer, motive (bare tracer))
    (wrap : ∀ layer stack, motive stack → motive (wrap layer stack)) (stack : Stack) :
    motive stack := by
  obtain ⟨layers, tracer⟩ := stack
  induction layers with
  | nil => exact bare tracer
  | cons layer layers ih => exact wrap layer ⟨layers, tracer⟩ ih

/-! ## One layer -/

/-- A layer that has moved what it wraps to a side resets the counters. -/
theorem goTo_wrap (x y : Int) (side : Side) : (wrap layer stack).goTo x y side =
    (stack.goTo x y side).map fun inner ↦ (wrap layer inner).resetCounters := by
  simp only [goTo, wrap]
  cases hgoTo : stack.tracer.goTo x y side with
  | error fault => rfl
  | ok tracer =>
    obtain ⟨-, rfl⟩ := stack.tracer.goTo_eq_ok_iff.1 hgoTo
    rfl

/-- A layer resets the counters after every search, whether or not it has found anything. -/
theorem nextBoundary_wrap : (wrap layer stack).nextBoundary =
    (stack.nextBoundary.1, (wrap layer stack.nextBoundary.2).resetCounters) := rfl

/-- A layer counts the step that what it wraps has made. -/
theorem next_wrap : (wrap layer stack).next =
    stack.next.map fun inner ↦ wrap (layer.afterStep inner.tracer.lastStep?) inner := by
  simp only [next, wrap]
  cases stack.tracer.next <;> rfl

/-! ## Without the layers -/

/-- The tracer of the stack on its own. -/
def unwrap : Stack :=
  bare stack.tracer

@[simp]
theorem unwrap_wrap : (wrap layer stack).unwrap = stack.unwrap := rfl

@[simp]
theorem tracer_unwrap : stack.unwrap.tracer = stack.tracer := rfl

@[simp]
theorem isFinished_unwrap : stack.unwrap.isFinished = stack.isFinished := rfl

theorem map_unwrap_next : stack.next.map unwrap = stack.unwrap.next := by
  induction stack using wrap_induction with
  | bare tracer =>
    simp only [next, bare, unwrap]
    cases tracer.next <;> rfl
  | wrap layer stack ih =>
    rw [next_wrap, unwrap_wrap, ← ih]
    cases stack.next <;> rfl

/-- On a new side the counters of the tracer are zero, so that one reset more changes nothing. -/
theorem unwrap_resetCounters_of_goTo {x y : Int} {side : Side} {inner : Stack}
    (h : stack.goTo x y side = .ok inner) : inner.resetCounters.unwrap = inner.unwrap := by
  simp only [goTo] at h
  cases hgoTo : stack.tracer.goTo x y side with
  | error fault =>
    rw [hgoTo] at h
    cases h
  | ok tracer =>
    rw [hgoTo] at h
    obtain ⟨-, rfl⟩ := stack.tracer.goTo_eq_ok_iff.1 hgoTo
    cases h
    rfl

theorem map_unwrap_goTo (x y : Int) (side : Side) :
    (stack.goTo x y side).map unwrap = stack.unwrap.goTo x y side := by
  induction stack using wrap_induction with
  | bare tracer =>
    simp only [goTo, bare, unwrap]
    cases tracer.goTo x y side <;> rfl
  | wrap layer stack ih =>
    rw [goTo_wrap, unwrap_wrap, ← ih]
    cases hgoTo : stack.goTo x y side with
    | error fault => rfl
    | ok inner =>
      have hreset := stack.unwrap_resetCounters_of_goTo hgoTo
      exact congrArg Except.ok hreset

theorem unwrap_nextBoundary :
    (stack.nextBoundary.1, stack.nextBoundary.2.unwrap) = stack.unwrap.nextBoundary := by
  induction stack using wrap_induction with
  | bare tracer => rfl
  | wrap layer stack ih =>
    rw [nextBoundary_wrap, unwrap_wrap, ← ih]
    rfl

/-! ## Many steps -/

theorem unwrap_nextTimes (times : Nat) : stack.unwrap.nextTimes times =
    ((stack.nextTimes times).1, (stack.nextTimes times).2.unwrap) := by
  induction times generalizing stack with
  | zero => rfl
  | succ times ih =>
    rw [nextTimes, nextTimes, ← map_unwrap_next]
    cases stack.next with
    | error fault => rfl
    | ok inner => exact ih inner

end Stack

/-- The same run, seen without the layers. -/
def ScanRun.unwrap {α : Type} (run : ScanRun α) : ScanRun α :=
  ⟨run.result, run.steps, run.stack.unwrap⟩

namespace Stack

variable (stack : Stack) (context : Context) (interval : Nat)

theorem unwrap_scanFrom (fuel steps : Nat) : stack.unwrap.scanFrom context interval fuel steps =
    (stack.scanFrom context interval fuel steps).unwrap := by
  induction fuel generalizing stack steps with
  | zero => rfl
  | succ fuel ih =>
    rw [scanFrom, scanFrom, isFinished_unwrap, ← map_unwrap_next]
    cases stack.isFinished with
    | true => rfl
    | false =>
      cases stack.next with
      | error fault => rfl
      | ok inner =>
        simp only [Except.map]
        cases checkAfter context interval (steps + 1) with
        | some cause => rfl
        | none => exact ih inner (steps + 1)

theorem unwrap_traceFrom (line : Value) (fuel : Nat) (points : Array Point) :
    stack.unwrap.traceFrom line context interval fuel points =
      (stack.traceFrom line context interval fuel points).unwrap := by
  induction fuel generalizing stack points with
  | zero => rfl
  | succ fuel ih =>
    rw [traceFrom, traceFrom, isFinished_unwrap, ← map_unwrap_next]
    cases stack.isFinished with
    | true => rfl
    | false =>
      cases stack.next with
      | error fault => rfl
      | ok inner =>
        simp only [Except.map, tracer_unwrap]
        cases inner.tracer.contourPoint line with
        | error fault => rfl
        | ok point =>
          simp only
          cases checkAfter context interval (points.push point).size with
          | some cause => rfl
          | none => exact ih inner (points.push point)

end Stack

/-! ## Operations -/

/-- Layers pass the operation on; they have a description of their own and no settings. -/
def Operation.isForwarded : Operation → Bool
  | description | setInterval _ | setLine _ => false
  | _ => true

/-- The same outcome, seen without the layers. -/
def Outcome.unwrap (outcome : Outcome) : Outcome :=
  ⟨outcome.result, outcome.warnings, outcome.stack.unwrap⟩

namespace Stack

variable (stack : Stack)

theorem map_unwrap_goToValues (x y side : Value) :
    (stack.goToValues x y side).map unwrap = stack.unwrap.goToValues x y side := by
  simp only [goToValues, ← map_unwrap_goTo, bind, Except.bind]
  cases Side.ofValue side with
  | error fault => rfl
  | ok side =>
    cases coordinateOfValue "x" x with
    | error fault => rfl
    | ok x => cases coordinateOfValue "y" y <;> rfl

theorem unwrap_change (result : Except Fault Stack) :
    stack.unwrap.change (result.map unwrap) = (stack.change result).unwrap := by
  cases result <;> rfl

theorem unwrap_scan (context : Context) (interval : Nat) :
    stack.unwrap.scan context interval = (stack.scan context interval).unwrap := by
  have hrun := stack.unwrap_scanFrom context interval (stack.patience context interval) 0
  have hpatience : stack.unwrap.patience context interval = stack.patience context interval := rfl
  rw [scan, hpatience, hrun]
  rfl

/-- Whatever is asked of a stack, its tracer answers and does the same without the layers. -/
theorem unwrap_perform {operation : Operation} (h : operation.isForwarded = true) :
    stack.unwrap.perform operation = (stack.perform operation).unwrap := by
  cases operation with
  | goTo x y side =>
    rw [perform, ← map_unwrap_goToValues]
    exact stack.unwrap_change _
  | nextBoundary =>
    have hsearch := stack.unwrap_nextBoundary
    rw [perform, ← hsearch]
    rfl
  | next times =>
    rw [perform, unwrap_nextTimes]
    rfl
  | scan context interval =>
    simp only [perform, tracer_unwrap]
    cases Interval.ofValueOr stack.tracer.interval interval with
    | error fault => rfl
    | ok interval =>
      simp only [unwrap_scan]
      rfl
  | trace line context interval =>
    simp only [perform, tracer_unwrap]
    cases Interval.ofValueOr stack.tracer.interval interval with
    | error fault => rfl
    | ok interval =>
      simp only [trace, unwrap_traceFrom]
      rfl
  | description | setInterval | setLine => cases h
  | _ => rfl

end Stack

end ContourTracing
