import ContourTracing.Operation

/-!
# The steps of scans and traces

Scans and traces change a stack by single steps only. Whatever ends them, the stack is afterwards
as if that many steps had been made one after the other.
-/

namespace ContourTracing.Stack

variable {stack next : Stack}

theorem tracer_next (h : stack.next = .ok next) : stack.tracer.next = .ok next.tracer := by
  rw [Stack.next] at h
  split at h
  · next hnext =>
    cases h
    exact hnext
  · cases h

/-- A call that is accepted puts the tracer on a side of a pixel of its mask. -/
theorem tracer_goTo {x y : Int} {side : Side} (h : stack.goTo x y side = .ok next) :
    stack.tracer.mask.Contains x y ∧ next.tracer = stack.tracer.place ⟨x, y, side⟩ := by
  rw [goTo] at h
  split at h
  · next hgoTo =>
    cases h
    exact stack.tracer.goTo_eq_ok_iff.1 hgoTo
  · cases h

theorem nextTimes_succ (h : stack.next = .ok next) (times : Nat) :
    stack.nextTimes (times + 1) = next.nextTimes times := by
  simp only [nextTimes, h]

/-- The steps that a scan counts are the steps that it has made. -/
theorem exists_nextTimes_scanFrom (context : Context) (interval fuel steps : Nat)
    (stack : Stack) :
    ∃ count, (stack.scanFrom context interval fuel steps).steps = steps + count ∧
      stack.nextTimes count = (.ok (), (stack.scanFrom context interval fuel steps).stack) := by
  induction fuel generalizing steps stack with
  | zero => exact ⟨0, rfl, rfl⟩
  | succ fuel ih =>
    rw [scanFrom]
    split
    · exact ⟨0, rfl, rfl⟩
    · split
      · exact ⟨0, rfl, rfl⟩
      · next next hnext =>
        split
        · exact ⟨1, rfl, nextTimes_succ hnext 0⟩
        · obtain ⟨count, hsteps, htimes⟩ := ih (steps + 1) next
          refine ⟨count + 1, ?_, (nextTimes_succ hnext count).trans htimes⟩
          rw [hsteps, Nat.add_assoc, Nat.add_comm 1]

theorem exists_nextTimes_traceFrom (line : Value) (context : Context) (interval fuel : Nat)
    (points : Array Point) (stack : Stack) :
    ∃ count, stack.nextTimes count =
      (.ok (), (stack.traceFrom line context interval fuel points).stack) := by
  induction fuel generalizing points stack with
  | zero => exact ⟨0, rfl⟩
  | succ fuel ih =>
    rw [traceFrom]
    split
    · exact ⟨0, rfl⟩
    · split
      · exact ⟨0, rfl⟩
      · next next hnext =>
        split
        · exact ⟨1, nextTimes_succ hnext 0⟩
        · next point _ =>
          dsimp only
          split
          · exact ⟨1, nextTimes_succ hnext 0⟩
          · obtain ⟨count, htimes⟩ := ih (points.push point) next
            exact ⟨count + 1, (nextTimes_succ hnext count).trans htimes⟩

end ContourTracing.Stack
