import ContourTracing.Proofs.Rejection
import ContourTracing.Proofs.ResumedScan

/-!
# Traces beside scans

A scan counts its steps, and a trace takes the number of points that it has so far. After every step
there is one point more, so that a trace asks the context when the scan asks it, and both go the
same way. After a step a contour point is always defined; so only the context can stop a trace, and
it stops the scan then, too.
-/

namespace ContourTracing

namespace Tracer

variable {tracer next : Tracer}

theorem exists_contourPoint_of_next (h : tracer.next = .ok next) (line : ContourLine) :
    ∃ point, next.contourPoint (.member (.line line)) = .ok point := by
  obtain ⟨placement, step, hplacement, hstep⟩ := exists_lastStep_of_next h
  refine ⟨line.point placement.current step, ?_⟩
  simp only [contourPoint, hplacement, hstep]
  rfl

theorem steps_of_next (hunfinished : tracer.isFinished = false) (h : tracer.next = .ok next) :
    next.tally.steps = tracer.tally.steps + 1 := by
  rw [Tracer.next] at h
  split at h
  · cases h
  · next placement hplacement =>
    have hstanding : placement.isFinished = false := by
      simpa only [isFinished, hplacement] using hunfinished
    rw [hstanding] at h
    cases h
    rfl

end Tracer

namespace Stack

variable {stack next final : Stack}

/-- The points are those after the first step, after the second one and so on. -/
def HasPoints (stack : Stack) (line : Value) (points : List Point) : Prop :=
  ∀ i point, points[i]? = some point → ∃ after, stack.nextTimes (i + 1) = (.ok (), after) ∧
    after.tracer.contourPoint line = .ok point

namespace HasPoints

theorem nil (stack : Stack) (line : Value) : stack.HasPoints line [] := by
  intro i point hpoint
  cases hpoint

theorem cons {line : Value} {point : Point} {points : List Point} (hnext : stack.next = .ok next)
    (hpoint : next.tracer.contourPoint line = .ok point) (h : next.HasPoints line points) :
    stack.HasPoints line (point :: points) := by
  intro i point' hpoint'
  rw [nextTimes_succ hnext]
  cases i with
  | zero =>
    rw [List.getElem?_cons_zero] at hpoint'
    cases hpoint'
    exact ⟨next, rfl, hpoint⟩
  | succ i =>
    rw [List.getElem?_cons_succ] at hpoint'
    exact h i point' hpoint'

end HasPoints

/-- A trace walks as the scan does that has made as many steps as there are points so far. -/
theorem exists_points_of_traceFrom (line : ContourLine) (context : Context)
    (interval fuel : ℕ) (points : Array Point) (stack : Stack) :
    let scan := stack.scanFrom context interval fuel points.size
    ∃ more, stack.HasPoints (.member (.line line)) more ∧
      scan.steps = points.size + more.length ∧
      stack.traceFrom (.member (.line line)) context interval fuel points =
        ⟨scan.result.map fun _ ↦ points.toList ++ more, scan.steps, scan.stack⟩ := by
  induction fuel generalizing points stack with
  | zero =>
    refine ⟨[], .nil _ _, rfl, ?_⟩
    cases hfinished : stack.isFinished <;>
      simp [scanFrom, traceFrom, hfinished, Except.map]
  | succ fuel ih =>
    cases hfinished : stack.isFinished with
    | true =>
      refine ⟨[], .nil _ _, ?_⟩
      simp [scanFrom, traceFrom, hfinished, Except.map]
    | false =>
      cases hnext : stack.next with
      | error fault =>
        refine ⟨[], .nil _ _, ?_⟩
        simp [scanFrom, traceFrom, hfinished, hnext, Except.map]
      | ok next =>
        obtain ⟨point, hpoint⟩ := Tracer.exists_contourPoint_of_next (tracer_next hnext) line
        cases hcheck : checkAfter context interval (points.size + 1) with
        | some cause =>
          refine ⟨[point], .cons hnext hpoint (.nil _ _), ?_⟩
          simp [scanFrom, traceFrom, hfinished, hnext, hpoint, hcheck, Except.map]
        | none =>
          -- the points that there are now are the steps that the scan has made
          obtain ⟨more, hmore, hsteps, htrace⟩ := ih (points.push point) next
          refine ⟨point :: more, .cons hnext hpoint hmore, ?_⟩
          rw [Array.size_push] at hsteps htrace
          simp only [scanFrom, traceFrom, hfinished, hnext, hpoint, hcheck, Array.size_push,
            Bool.false_eq_true, if_false]
          refine ⟨by rw [hsteps, List.length_cons]; omega, ?_⟩
          rw [htrace, Array.toList_push, List.append_assoc, List.singleton_append]

/-- A trace makes the steps of the scan and ends as it does. -/
theorem exists_points_of_trace (line : ContourLine) (context : Context) (interval : ℕ)
    (stack : Stack) :
    let scan := stack.scan context interval
    ∃ points, stack.HasPoints (.member (.line line)) points ∧ scan.steps = points.length ∧
      stack.trace (.member (.line line)) context interval =
        ⟨scan.result.map fun _ ↦ points, scan.steps, scan.stack⟩ := by
  obtain ⟨points, hpoints, hsteps, htrace⟩ := exists_points_of_traceFrom line context interval
    (stack.patience context interval) #[] stack
  refine ⟨points, hpoints, ?_, ?_⟩
  · exact hsteps.trans (Nat.zero_add _)
  · rw [trace, htrace, scan]
    cases (stack.scanFrom context interval (stack.patience context interval) 0).result <;> rfl

theorem Remains.isFinished {count : ℕ} (h : Remains count stack final) :
    final.isFinished = true := by
  induction h with
  | done hfinished => exact hfinished
  | step _ _ _ ih => exact ih

theorem Remains.steps_eq {count : ℕ} (h : Remains count stack final) :
    final.tracer.tally.steps = stack.tracer.tally.steps + count := by
  induction h with
  | done => rfl
  | step hunfinished hnext _ ih =>
    rw [ih, Tracer.steps_of_next hunfinished (tracer_next hnext), Nat.add_right_comm, Nat.add_assoc]

/-- The stack has just been put on a boundary side, by a call or by a search. -/
inductive IsPut : Stack → Prop
  | call {stack placed : Stack} {x y : ℤ} {side : Side} : stack.goTo x y side = .ok placed →
    placed.tracer.mask.IsBoundary ⟨x, y, side⟩ → IsPut placed
  | search {stack found : Stack} {s : Position} : stack.nextBoundary = (true, found) →
    found.tracer.position? = some s → found.tracer.mask.IsBoundary s → IsPut found

theorem IsPut.isUnderway (h : stack.IsPut) : stack.IsUnderway := by
  cases h with
  | call hgoTo hboundary => exact .put hgoTo hboundary
  | search hfound hposition hboundary => exact .found hfound hposition hboundary

theorem IsPut.steps_eq_zero (h : stack.IsPut) : stack.tracer.tally.steps = 0 := by
  cases h with
  | call hgoTo _ =>
    obtain ⟨-, htracer⟩ := tracer_goTo hgoTo
    rw [htracer]
    rfl
  | search hfound _ _ =>
    obtain ⟨e, memory, -, htracer⟩ := Tracer.exists_place_of_found (tracer_nextBoundary hfound)
    rw [htracer]
    rfl

/-- A trace and a scan from the same stack make the same steps and leave the same stack. Either
both are stopped, by the same answer of the context, or both finish the boundary. Then the trace has
one point for each step, and as many as are counted if the stack had just been put there. -/
theorem trace_agrees_with_scan (h : stack.IsUnderway) (line : ContourLine) (context : Context)
    {interval : ℕ} (hinterval : 0 < interval) :
    let scan := stack.scan context interval
    let trace := stack.trace (.member (.line line)) context interval
    trace.steps = scan.steps ∧ trace.stack = scan.stack ∧
      ((∃ cause, scan.result = .error (.context cause) ∧ trace.result = .error (.context cause)) ∨
        ∃ points, scan.result = .ok scan.stack.tracer.tally.steps ∧ trace.result = .ok points ∧
          trace.stack.isFinished = true ∧
          stack.HasPoints (.member (.line line)) points ∧ points.length = scan.steps ∧
          trace.stack.tracer.tally.steps = stack.tracer.tally.steps + points.length ∧
          (stack.IsPut → points.length = trace.stack.tracer.tally.steps)) := by
  intro scan trace
  obtain ⟨points, hpoints, hsteps, htrace⟩ := stack.exists_points_of_trace line context interval
  obtain ⟨count, final, hle, hremains⟩ := h.exists_remains
  have hresult : trace.result = scan.result.map fun _ ↦ points := congrArg ScanRun.result htrace
  have hstack : trace.stack = scan.stack := congrArg ScanRun.stack htrace
  refine ⟨congrArg ScanRun.steps htrace, hstack, ?_⟩
  rcases hremains.scan_cases hle hinterval context with hscan | ⟨checks, hstopped, -⟩
  · have hscan : scan = ⟨.ok final.tracer.tally.steps, count, final⟩ := hscan
    have hlength : count = points.length := by
      rw [← hsteps]
      exact (congrArg ScanRun.steps hscan).symm
    have hcount : final.tracer.tally.steps = stack.tracer.tally.steps + points.length := by
      rw [hremains.steps_eq, hlength]
    right
    rw [hstack, hresult, hscan]
    refine ⟨points, rfl, rfl, hremains.isFinished, hpoints, hlength.symm, hcount, fun hput ↦ ?_⟩
    rw [hcount, hput.steps_eq_zero, Nat.zero_add]
  · obtain ⟨cause, -, hcause⟩ := hstopped.result_eq
    exact .inl ⟨cause, hcause, by rw [hresult, hcause]; rfl⟩

theorem trace_agrees_with_scan_target :
    let tracer := Tracer.new .target .null .straight (.fresh Mask.target.size .all)
    let stack := ((bare tracer).wrap (.plain 0)).nextBoundary.2
    let scan := stack.scan (.countdown 5 .cancelled) 4
    let trace := stack.trace (.member (.line .segments)) (.countdown 5 .cancelled) 4
    stack.IsPut ∧ stack.IsUnderway ∧ 0 < 4 ∧ trace.steps = scan.steps ∧ trace.stack = scan.stack ∧
      ((∃ cause, scan.result = .error (.context cause) ∧ trace.result = .error (.context cause)) ∨
        ∃ points, scan.result = .ok scan.stack.tracer.tally.steps ∧ trace.result = .ok points ∧
          trace.stack.isFinished = true ∧
          stack.HasPoints (.member (.line .segments)) points ∧ points.length = scan.steps ∧
          trace.stack.tracer.tally.steps = stack.tracer.tally.steps + points.length ∧
          (stack.IsPut → points.length = trace.stack.tracer.tally.steps)) := by
  intro tracer stack
  have hflag : ((bare tracer).wrap (.plain 0)).nextBoundary.1 = true := by decide +kernel
  have hposition : stack.tracer.position? = some ⟨0, 0, .left⟩ := by decide +kernel
  have hboundary : stack.tracer.mask.IsBoundary ⟨0, 0, .left⟩ := by decide +kernel
  have hput : stack.IsPut := .search (Prod.fst_eq_iff.1 hflag) hposition hboundary
  exact ⟨hput, hput.isUnderway, by decide,
    trace_agrees_with_scan hput.isUnderway .segments (.countdown 5 .cancelled) (by decide)⟩

end Stack

end ContourTracing
