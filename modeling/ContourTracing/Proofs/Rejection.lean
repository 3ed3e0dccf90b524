import ContourTracing.Proofs.Coverage
import ContourTracing.Proofs.ScanSteps

/-!
# Refused calls

A call is refused for a bad argument, a coordinate outside of the mask or a tracer that is not
ready. Scans that their context has stopped are not refused. A refused call has changed nothing,
with one exception: a trace looks at the style of its contour line only when it comes to the first
point, and the step to that point has been made by then.
-/

namespace ContourTracing

def Fault.isRejection : Fault → Bool
  | argument _ | bounds _ | state _ => true
  | context _ | misuse _ | endless => false

/-! ## Single steps -/

namespace Tracer

variable {tracer next : Tracer} {fault : Fault}

theorem of_next_eq_error (h : tracer.next = .error fault) :
    tracer.placement = none ∧ fault = .state .notPositioned := by
  rw [Tracer.next] at h
  split at h
  · next hplacement => exact ⟨hplacement, (Except.error.inj h).symm⟩
  · cases h

/-- After a call of `next` a step has been made, now or before. -/
theorem exists_lastStep_of_next (h : tracer.next = .ok next) :
    ∃ placement step, next.placement = some placement ∧ placement.lastStep = some step := by
  rw [Tracer.next] at h
  split at h
  · cases h
  · next placement hplacement =>
    cases h
    split
    · next hfinished =>
      rw [Placement.isFinished, Bool.and_eq_true] at hfinished
      obtain ⟨step, hstep⟩ := Option.isSome_iff_exists.1 hfinished.1
      exact ⟨placement, step, hplacement, hstep⟩
    · exact ⟨_, _, rfl, rfl⟩

/-- With a step made, only the style of the contour line can be refused. -/
theorem of_contourPoint_eq_error {placement : Placement} {step : Step} {line : Value}
    (hplacement : tracer.placement = some placement) (hstep : placement.lastStep = some step)
    (h : tracer.contourPoint line = .error fault) :
    line.line? = none ∧ fault = .argument (.lineUnsupported line) := by
  simp only [contourPoint, hplacement, hstep, ContourLine.ofValue] at h
  cases hline : line.line? with
  | some style =>
    rw [hline] at h
    cases h
  | none =>
    rw [hline] at h
    exact ⟨rfl, (Except.error.inj h).symm⟩

theorem line?_eq_some_of_contourPoint {line : Value} {point : Point}
    (h : tracer.contourPoint line = .ok point) : line.line? ≠ none := by
  intro hline
  simp only [contourPoint, ContourLine.ofValue, hline] at h
  split at h
  · cases h
  · split at h <;> cases h

end Tracer

namespace Stack

variable {stack next : Stack} {fault : Fault}

theorem of_next_eq_error (h : stack.next = .error fault) :
    stack.tracer.placement = none ∧ fault = .state .notPositioned := by
  rw [Stack.next] at h
  split at h
  · cases h
  · next hnext =>
    cases h
    exact Tracer.of_next_eq_error hnext

theorem placement_ne_none_of_next (h : stack.next = .ok next) : next.tracer.placement ≠ none := by
  obtain ⟨placement, step, hplacement, -⟩ := Tracer.exists_lastStep_of_next (tracer_next h)
  rw [hplacement]
  exact Option.some_ne_none placement

/-! ## Sequences of steps -/

/-- Of several steps only the first one can be refused. -/
theorem of_nextTimes_eq_error {times : ℕ} (h : (stack.nextTimes times).1 = .error fault) :
    stack.tracer.placement = none ∧ fault = .state .notPositioned ∧
      (stack.nextTimes times).2 = stack := by
  induction times generalizing stack with
  | zero => cases h
  | succ times ih =>
    cases hnext : stack.next with
    | error cause =>
      simp only [nextTimes, hnext] at h ⊢
      cases h
      obtain ⟨hplacement, hfault⟩ := of_next_eq_error hnext
      exact ⟨hplacement, hfault, trivial⟩
    | ok next =>
      rw [nextTimes_succ hnext] at h
      exact absurd (ih h).1 (placement_ne_none_of_next hnext)

theorem of_isRejection_scanFrom {context : Context} {interval fuel steps : ℕ}
    (h : (stack.scanFrom context interval fuel steps).result = .error fault)
    (hrejection : fault.isRejection = true) :
    stack.tracer.placement = none ∧ fault = .state .notPositioned ∧
      (stack.scanFrom context interval fuel steps).stack = stack := by
  induction fuel generalizing steps stack with
  | zero =>
    simp only [scanFrom] at h
    split at h
    · cases h
    · cases h
      cases hrejection
  | succ fuel ih =>
    rw [scanFrom] at h ⊢
    split at h
    · cases h
    · next hunfinished =>
      rw [if_neg hunfinished]
      split at h
      · next hnext =>
        cases h
        obtain ⟨hplacement, hfault⟩ := of_next_eq_error hnext
        exact ⟨hplacement, hfault, rfl⟩
      · next next hnext =>
        split at h
        · cases h
          cases hrejection
        -- After a step the tracer stands somewhere, so that no later step is refused.
        · exact absurd (ih h).1 (placement_ne_none_of_next hnext)

/-- A trace is refused before its first step, or because of its style after this step. -/
theorem of_isRejection_traceFrom {line : Value} {context : Context} {interval fuel : ℕ}
    {points : Array Point}
    (h : (stack.traceFrom line context interval fuel points).result = .error fault)
    (hrejection : fault.isRejection = true) :
    let run := stack.traceFrom line context interval fuel points
    stack.tracer.placement = none ∧ fault = .state .notPositioned ∧ run.stack = stack ∨
      line.line? = none ∧ fault = .argument (.lineUnsupported line) ∧
        stack.isFinished = false ∧ stack.next = .ok run.stack := by
  induction fuel generalizing points stack with
  | zero =>
    simp only [traceFrom] at h
    split at h
    · cases h
    · cases h
      cases hrejection
  | succ fuel ih =>
    dsimp only
    rw [traceFrom] at h ⊢
    split at h
    · cases h
    · next hunfinished =>
      rw [if_neg hunfinished]
      split at h
      · next hnext =>
        cases h
        obtain ⟨hplacement, hfault⟩ := of_next_eq_error hnext
        exact .inl ⟨hplacement, hfault, rfl⟩
      · next next hnext =>
        split at h
        · next hpoint =>
          cases h
          obtain ⟨placement, step, hplacement, hstep⟩ :=
            Tracer.exists_lastStep_of_next (tracer_next hnext)
          obtain ⟨hline, hfault⟩ := Tracer.of_contourPoint_eq_error hplacement hstep hpoint
          exact .inr ⟨hline, hfault, Bool.eq_false_iff.2 hunfinished, hnext⟩
        · next point hpoint =>
          dsimp only at h
          split at h
          · cases h
            cases hrejection
          · rcases ih h with ⟨hplacement, -⟩ | ⟨hline, -⟩
            · exact absurd hplacement (placement_ne_none_of_next hnext)
            · exact absurd hline (Tracer.line?_eq_some_of_contourPoint hpoint)

/-! ## All calls -/

theorem of_map_eq_error {α β : Type} {change : α → β} {result : Except Fault α}
    (h : result.map change = .error fault) : result = .error fault := by
  cases result with
  | ok answer => cases h
  | error cause =>
    cases h
    rfl

theorem stack_change_of_error {result : Except Fault Stack}
    (h : (stack.change result).result = .error fault) : (stack.change result).stack = stack := by
  cases result with
  | ok reached => cases h
  | error cause => rfl

theorem ne_bounds_of_ofValueOr {default : ℕ} {value : Value}
    (h : Interval.ofValueOr default value = .error fault) (cause : BoundsFault) :
    fault ≠ .bounds cause := by
  have hvalue : Interval.ofValue value = .error fault := by
    cases value with
    | null => cases h
    | _ => exact h
  rw [Interval.ofValue] at hvalue
  split at hvalue
  · cases hvalue
    exact nofun
  · split at hvalue
    · cases hvalue
      exact nofun
    · cases hvalue

/-- A scan is refused for its interval or because the tracer stands nowhere. -/
theorem of_isRejection_perform_scan {context : Context} {interval : Value}
    (h : (stack.perform (.scan context interval)).result = .error fault)
    (hrejection : fault.isRejection = true) :
    (stack.perform (.scan context interval)).stack = stack ∧ ∀ cause, fault ≠ .bounds cause := by
  simp only [perform] at h ⊢
  split at h
  · next hinterval =>
    cases h
    exact ⟨rfl, ne_bounds_of_ofValueOr hinterval⟩
  · next interval _ =>
    cases hresult : (stack.scan context interval).result with
    | ok count =>
      rw [hresult] at h
      cases h
    | error cause =>
      rw [hresult] at h
      cases h
      obtain ⟨-, rfl, hstack⟩ := of_isRejection_scanFrom (of_map_eq_error hresult) hrejection
      exact ⟨hstack, nofun⟩

/-- A trace can be refused for its style as well, one step later. -/
theorem of_isRejection_perform_trace {line : Value} {context : Context} {interval : Value}
    (h : (stack.perform (.trace line context interval)).result = .error fault)
    (hrejection : fault.isRejection = true) :
    ((stack.perform (.trace line context interval)).stack = stack ∨
      line ≠ .null ∧ line.line? = none ∧ fault = .argument (.lineUnsupported line) ∧
        stack.isFinished = false ∧
          stack.next = .ok (stack.perform (.trace line context interval)).stack) ∧
      ∀ cause, fault ≠ .bounds cause := by
  simp only [perform] at h ⊢
  split at h
  · next hinterval =>
    cases h
    exact ⟨.inl rfl, ne_bounds_of_ofValueOr hinterval⟩
  · rcases of_isRejection_traceFrom (of_map_eq_error h) hrejection with
      ⟨-, rfl, hstack⟩ | ⟨hline, hfault, hunfinished, hnext⟩
    · exact ⟨.inl hstack, nofun⟩
    · cases line with
      | null => cases hline
      | _ =>
        exact ⟨.inr ⟨nofun, hline, hfault, hunfinished, hnext⟩, fun cause ↦ hfault ▸ nofun⟩

/-- A refused call leaves the tracer and its layers as they were. Only a trace with a style that
is none has made a step by the time it is refused. -/
theorem perform_of_isRejection {operation : Operation}
    (h : (stack.perform operation).result = .error fault) (hrejection : fault.isRejection = true) :
    (stack.perform operation).stack = stack ∨
      ∃ line context interval, operation = .trace line context interval ∧ line ≠ .null ∧
        line.line? = none ∧ fault = .argument (.lineUnsupported line) ∧
          stack.isFinished = false ∧ stack.next = .ok (stack.perform operation).stack := by
  cases operation with
  | nextBoundary | reset => cases h
  | next times => exact .inl (of_nextTimes_eq_error (of_map_eq_error h)).2.2
  | goTo | setInterval | setLine => exact .inl (stack_change_of_error h)
  | scan => exact .inl (of_isRejection_perform_scan h hrejection).1
  | trace line context interval =>
    exact (of_isRejection_perform_trace h hrejection).1.imp_right
      fun hstep ↦ ⟨line, context, interval, rfl, hstep⟩
  | _ => exact .inl rfl

/-- There is no column to the right of the last one. -/
theorem perform_of_isRejection_target :
    let stack := bare (.new .target .null .straight (.fresh Mask.target.size .all))
    let call := Operation.goTo (.int 5) (.int 0) (.member (.side .left))
    let fault := Fault.bounds (.coordinateAbove "x" 5 5)
    (stack.perform call).result = .error fault ∧ fault.isRejection = true ∧
      ((stack.perform call).stack = stack ∨
        ∃ line context interval, call = .trace line context interval ∧ line ≠ .null ∧
          line.line? = none ∧ fault = .argument (.lineUnsupported line) ∧
            stack.isFinished = false ∧ stack.next = .ok (stack.perform call).stack) :=
  ⟨rfl, rfl, perform_of_isRejection rfl rfl⟩

/-- A text is no style of a contour line, but the trace has made a step when it is refused. -/
theorem trace_refused_after_step :
    let found := (bare (.new .target .null .straight (.fresh Mask.target.size .all))).nextBoundary.2
    let traced := found.perform (.trace (.text "x") .silent .null)
    traced.result = .error (.argument (.lineUnsupported (.text "x"))) ∧
      traced.stack.tracer.position? ≠ found.tracer.position? ∧
        traced.stack.tracer.tally ≠ found.tracer.tally := by
  intro found traced
  have hresult : traced.result = .error (.argument (.lineUnsupported (.text "x"))) := by
    with_unfolding_all rfl
  have hposition : traced.stack.tracer.position? ≠ found.tracer.position? := by decide +kernel
  have htally : traced.stack.tracer.tally ≠ found.tracer.tally := by decide +kernel
  exact ⟨hresult, hposition, htally⟩

end Stack

end ContourTracing
