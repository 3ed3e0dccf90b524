import ContourTracing.Proofs.SearchFinds
import ContourTracing.Proofs.Tour

/-!
# Scans that are taken up again

A tracer that has been put on a boundary side comes back there after one round of the circuit,
wherever it is underway now. A scan that its context stops has made whole intervals of the steps
that remain, and the next scan goes on with the rest. So it makes no difference in the end how
often a scan is stopped on the way.
-/

namespace ContourTracing

/-! ## Steps made -/

/-- The tracer has been put on a boundary side and has since made a number of steps, of which the
last one may have closed the circuit. -/
structure Tracer.HasWalked (tracer : Tracer) (s : Position) (count : ℕ) : Prop where
  isBoundary : tracer.mask.IsBoundary s
  count_le : count ≤ tracer.mask.period tracer.connectivity s
  exists_placement : ∃ last : Option Step, (last = none ↔ count = 0) ∧
    tracer.placement = some ⟨s, (tracer.mask.successor tracer.connectivity)^[count] s, last⟩

namespace Tracer

variable {tracer next : Tracer} {s : Position} {count : ℕ}

theorem hasWalked_zero (h : tracer.mask.IsBoundary s)
    (hplacement : tracer.placement = some (.initial s)) : tracer.HasWalked s 0 :=
  ⟨h, Nat.zero_le _, none, by simp, hplacement⟩

namespace HasWalked

theorem congr {other : Tracer} (h : tracer.HasWalked s count) (hmask : other.mask = tracer.mask)
    (hconnectivity : other.connectivity = tracer.connectivity)
    (hplacement : other.placement = tracer.placement) : other.HasWalked s count := by
  obtain ⟨hboundary, hle, last, hlast, heq⟩ := h
  refine ⟨hmask ▸ hboundary, ?_, last, hlast, ?_⟩
  · rwa [hmask, hconnectivity]
  · rw [hplacement, heq, hmask, hconnectivity]

theorem isFinished_iff (h : tracer.HasWalked s count) : tracer.isFinished = true ↔
    count = tracer.mask.period tracer.connectivity s := by
  obtain ⟨hboundary, hle, last, hlast, hplacement⟩ := h
  have hpos : 0 < tracer.mask.period tracer.connectivity s := Mask.period_pos hboundary
  simp only [isFinished, hplacement, Placement.isFinished, Bool.and_eq_true, beq_iff_eq,
    Option.isSome_iff_ne_none, ne_eq, hlast]
  constructor
  · rintro ⟨hmoved, hback⟩
    by_contra hne
    exact Mask.iterate_ne_self (Nat.pos_of_ne_zero hmoved) (lt_of_le_of_ne hle hne) hback
  · rintro rfl
    exact ⟨hpos.ne', tracer.mask.iterate_period tracer.connectivity s⟩

theorem next_of_lt (h : tracer.HasWalked s count)
    (hlt : count < tracer.mask.period tracer.connectivity s) :
    ∃ next, tracer.next = .ok next ∧ next.mask = tracer.mask ∧
      next.connectivity = tracer.connectivity ∧ next.HasWalked s (count + 1) := by
  have hunfinished := mt h.isFinished_iff.1 hlt.ne
  obtain ⟨hboundary, -, last, -, hplacement⟩ := h
  simp only [isFinished, hplacement, Bool.not_eq_true] at hunfinished
  let arrival := tracer.arrivalFrom ((tracer.mask.successor tracer.connectivity)^[count] s)
  have hplacement' : (tracer.arrive arrival).placement =
      some ⟨s, (tracer.mask.successor tracer.connectivity)^[count + 1] s, some arrival.step⟩ := by
    rw [Function.iterate_succ_apply']
    exact placement_arrive hplacement arrival
  exact ⟨tracer.arrive arrival, next_eq_arrive hplacement hunfinished, rfl, rfl, hboundary, hlt,
    some arrival.step, iff_of_false (Option.some_ne_none _) (Nat.succ_ne_zero count), hplacement'⟩

theorem next_of_eq (h : tracer.HasWalked s count)
    (heq : count = tracer.mask.period tracer.connectivity s) : tracer.next = .ok tracer := by
  have hfinished := h.isFinished_iff.2 heq
  obtain ⟨-, -, last, -, hplacement⟩ := h
  simp only [isFinished, hplacement] at hfinished
  simp only [Tracer.next, hplacement, hfinished, if_true]

theorem exists_next (h : tracer.HasWalked s count) (hnext : tracer.next = .ok next) :
    ∃ count, next.HasWalked s count := by
  rcases h.count_le.lt_or_eq with hlt | heq
  · obtain ⟨reached, hreached, -, -, hwalked⟩ := h.next_of_lt hlt
    rw [hnext] at hreached
    cases hreached
    exact ⟨_, hwalked⟩
  · rw [h.next_of_eq heq] at hnext
    cases hnext
    exact ⟨count, h⟩

end HasWalked

end Tracer

namespace Stack

variable {stack next final last : Stack}

/-- The stack has been put on a boundary side, by a call or by a search, and has perhaps made steps
since. Its counters may have been reset on the way and its buffers written to. -/
inductive IsUnderway : Stack → Prop
  | put {stack placed : Stack} {x y : ℤ} {side : Side} : stack.goTo x y side = .ok placed →
    placed.tracer.mask.IsBoundary ⟨x, y, side⟩ → IsUnderway placed
  | found {stack found : Stack} {s : Position} : stack.nextBoundary = (true, found) →
    found.tracer.position? = some s → found.tracer.mask.IsBoundary s → IsUnderway found
  | next {stack next : Stack} : IsUnderway stack → stack.next = .ok next → IsUnderway next
  | reset {stack : Stack} : IsUnderway stack → IsUnderway stack.resetCounters
  | rewrite {stack : Stack} {memory : Memory} : IsUnderway stack →
    stack.tracer.memory.IsRewritten memory →
      IsUnderway ⟨stack.layers, { stack.tracer with memory := memory }⟩

theorem IsUnderway.exists_hasWalked (h : stack.IsUnderway) :
    ∃ s count, stack.tracer.HasWalked s count := by
  induction h with
  | put hgoTo hboundary =>
    obtain ⟨-, htracer⟩ := tracer_goTo hgoTo
    exact ⟨_, 0, Tracer.hasWalked_zero hboundary (by rw [htracer]; rfl)⟩
  | @found _ _ s hfound hposition hboundary =>
    refine ⟨s, 0, Tracer.hasWalked_zero hboundary ?_⟩
    obtain ⟨e, memory, -, htracer⟩ := Tracer.exists_place_of_found (tracer_nextBoundary hfound)
    rw [htracer] at hposition ⊢
    cases hposition
    rfl
  | next _ hnext ih =>
    obtain ⟨s, count, hwalked⟩ := ih
    exact ⟨s, hwalked.exists_next (tracer_next hnext)⟩
  | reset _ ih =>
    obtain ⟨s, count, hwalked⟩ := ih
    exact ⟨s, count, hwalked.congr rfl rfl rfl⟩
  | rewrite _ _ ih =>
    obtain ⟨s, count, hwalked⟩ := ih
    exact ⟨s, count, hwalked.congr rfl rfl rfl⟩

/-! ## Steps that remain -/

/-- The number of steps up to the end of the boundary, and the stack there. -/
inductive Remains : ℕ → Stack → Stack → Prop
  | done {stack : Stack} : stack.isFinished = true → Remains 0 stack stack
  | step {stack next final : Stack} {count : ℕ} : stack.isFinished = false →
    stack.next = .ok next → Remains count next final → Remains (count + 1) stack final

theorem Remains.mask_eq {count : ℕ} (h : Remains count stack final) :
    final.tracer.mask = stack.tracer.mask := by
  induction h with
  | done => rfl
  | step _ hnext _ ih => exact ih.trans (Tracer.Change.mask_eq (.next (tracer_next hnext)))

theorem exists_remains {s : Position} {count rest : ℕ} (h : stack.tracer.HasWalked s count)
    (hrest : count + rest = stack.tracer.mask.period stack.tracer.connectivity s) :
    ∃ final, Remains rest stack final := by
  induction rest generalizing stack count with
  | zero => exact ⟨stack, .done (h.isFinished_iff.2 hrest)⟩
  | succ rest ih =>
    have hlt : count < stack.tracer.mask.period stack.tracer.connectivity s := by omega
    obtain ⟨tracer, hnext, hmask, hconnectivity, hwalked⟩ := h.next_of_lt hlt
    have hstack : stack.next =
        .ok ⟨stack.layers.map (Layer.afterStep · tracer.lastStep?), tracer⟩ := by
      simp only [Stack.next, hnext]
    obtain ⟨final, hremains⟩ := @ih ⟨_, tracer⟩ (count + 1) hwalked (by
      rw [hmask, hconnectivity]
      omega)
    exact ⟨final, .step (Bool.eq_false_iff.2 (mt h.isFinished_iff.1 hlt.ne)) hstack hremains⟩

/-- A stack that is underway comes to the end, after no more steps than there are sides. -/
theorem IsUnderway.exists_remains (h : stack.IsUnderway) :
    ∃ count final, count ≤ 4 * stack.tracer.mask.size ∧ Remains count stack final := by
  obtain ⟨s, count, hwalked⟩ := h.exists_hasWalked
  have hle : stack.tracer.mask.period stack.tracer.connectivity s ≤ 4 * stack.tracer.mask.size :=
    Mask.period_le hwalked.isBoundary
  obtain ⟨final, hremains⟩ := Stack.exists_remains hwalked (Nat.add_sub_cancel' hwalked.count_le)
  exact ⟨_, final, by omega, hremains⟩

/-! ## Stopped scans -/

/-- If all checks pass, then the scan makes the steps that remain. -/
theorem Remains.scanFrom_of_passed {count fuel steps : ℕ} {context : Context} {interval : ℕ}
    (h : Remains count stack final) (hfuel : count ≤ fuel)
    (hpassed : ∀ k, steps < k → k ≤ steps + count → checkAfter context interval k = none) :
    stack.scanFrom context interval fuel steps = ⟨.ok (), steps + count, final⟩ := by
  induction h generalizing fuel steps with
  | done hfinished => cases fuel <;> simp [scanFrom, hfinished]
  | @step stack next final count hunfinished hnext _ ih =>
    obtain ⟨fuel, rfl⟩ : ∃ more, fuel = more + 1 := ⟨fuel - 1, by omega⟩
    have hrun := @ih fuel (steps + 1) (Nat.le_of_succ_le_succ hfuel)
      fun k hk hle ↦ hpassed k (by omega) (by omega)
    have hcheck := hpassed (steps + 1) (Nat.lt_succ_self steps) (by omega)
    simp only [scanFrom, hunfinished, hnext, hcheck, Bool.false_eq_true, if_false]
    rw [hrun, Nat.add_right_comm, Nat.add_assoc]

/-- The first check that does not pass stops the scan, and the other steps remain. -/
theorem Remains.scanFrom_of_stopped {count fuel steps made : ℕ} {context : Context} {interval : ℕ}
    {cause : ContextFault} (h : Remains count stack final) (hfuel : count ≤ fuel)
    (hmade : 0 < made) (hle : made ≤ count)
    (hpassed : ∀ k, steps < k → k < steps + made → checkAfter context interval k = none)
    (hcause : checkAfter context interval (steps + made) = some cause) :
    ∃ last, Remains (count - made) last final ∧
      stack.scanFrom context interval fuel steps =
        ⟨.error (.context cause), steps + made, last⟩ := by
  -- The induction is on the steps that remain; the check that stops the scan comes closer by one.
  induction h generalizing fuel steps made with
  | done => omega
  | @step stack next final count hunfinished hnext hrest ih =>
    obtain ⟨fuel, rfl⟩ : ∃ more, fuel = more + 1 := ⟨fuel - 1, by omega⟩
    obtain ⟨made, rfl⟩ : ∃ more, made = more + 1 := ⟨made - 1, by omega⟩
    rcases Nat.eq_zero_or_pos made with rfl | hpos
    · refine ⟨next, hrest, ?_⟩
      simp only [scanFrom, hunfinished, hnext, hcause, Bool.false_eq_true, if_false]
    · have hshift : steps + 1 + made = steps + (made + 1) := by omega
      obtain ⟨last, hremains, hrun⟩ := @ih fuel (steps + 1) made (Nat.le_of_succ_le_succ hfuel) hpos
        (Nat.le_of_succ_le_succ hle) (fun k hk hlt ↦ hpassed k (by omega) (by omega))
        (hshift ▸ hcause)
      have hcheck := hpassed (steps + 1) (Nat.lt_succ_self steps) (by omega)
      refine ⟨last, by rwa [Nat.add_sub_add_right], ?_⟩
      simp only [scanFrom, hunfinished, hnext, hcheck, Bool.false_eq_true, if_false]
      rw [hrun, hshift]

/-- A scan has been stopped at the check with the given number, all checks before having passed. It
has made that many whole intervals of plain steps. -/
structure IsStopped (stack : Stack) (context : Context) (interval checks : ℕ) (run : ScanRun ℕ) :
    Prop where
  checks_pos : 0 < checks
  passed : ∀ i, i + 1 < checks → context.answer i = none
  result_eq : ∃ cause, context.answer (checks - 1) = some cause ∧
    run.result = .error (.context cause)
  steps_eq : run.steps = checks * interval
  nextTimes_eq : stack.nextTimes (checks * interval) = (.ok (), run.stack)

/-- Scans that were stopped one after the other, each going on where the last one had stopped. -/
inductive Interrupted (stack : Stack) : Stack → Prop
  | refl : Interrupted stack stack
  | scan {last : Stack} {context : Context} {interval : ℕ} {cause : ContextFault} :
    Interrupted stack last → 0 < interval →
      (last.scan context interval).result = .error (.context cause) →
        Interrupted stack (last.scan context interval).stack

theorem checkAfter_mul {interval : ℕ} (hinterval : 0 < interval) (context : Context) (i : ℕ) :
    checkAfter context interval ((i + 1) * interval) = context.answer i := by
  simp [checkAfter, Nat.mul_div_cancel _ hinterval]

/-- Between two checks nothing stops a scan. -/
theorem checkAfter_eq_none {context : Context} {interval bound k : ℕ}
    (h : ∀ i, (i + 1) * interval < bound → context.answer i = none) (hpos : 0 < k)
    (hlt : k < bound) : checkAfter context interval k = none := by
  unfold checkAfter
  split
  · next hmod =>
    obtain ⟨i, rfl⟩ := Nat.dvd_of_mod_eq_zero hmod
    obtain ⟨i, rfl⟩ : ∃ before, i = before + 1 :=
      ⟨i - 1, (Nat.succ_pred_eq_of_pos (Nat.pos_of_mul_pos_left hpos)).symm⟩
    rw [Nat.mul_div_cancel_left _ (Nat.pos_of_mul_pos_right hpos), Nat.add_sub_cancel]
    exact h i (by rwa [Nat.mul_comm])
  · rfl

/-- All checks of so many steps pass, or there is a first one that does not. -/
theorem passed_or_exists_first (context : Context) (interval count : ℕ) :
    (∀ i, (i + 1) * interval ≤ count → context.answer i = none) ∨
      ∃ i cause, (i + 1) * interval ≤ count ∧ context.answer i = some cause ∧
        ∀ j < i, context.answer j = none := by
  by_cases hstop : ∃ i, (i + 1) * interval ≤ count ∧ context.answer i ≠ none
  · classical
    obtain ⟨hcount, hanswer⟩ := Nat.find_spec hstop
    obtain ⟨cause, hcause⟩ := Option.ne_none_iff_exists'.1 hanswer
    refine .inr ⟨Nat.find hstop, cause, hcount, hcause, fun j hj ↦ ?_⟩
    by_contra hne
    have hmul := Nat.mul_le_mul_right interval (Nat.succ_le_succ hj.le)
    exact Nat.find_min hstop hj ⟨hmul.trans hcount, hne⟩
  · refine .inl fun i hi ↦ ?_
    by_contra hne
    exact hstop ⟨i, hi, hne⟩

theorem Remains.scan_cases {count : ℕ} (h : Remains count stack final)
    (hle : count ≤ 4 * stack.tracer.mask.size) {interval : ℕ} (hinterval : 0 < interval)
    (context : Context) :
    stack.scan context interval = ⟨.ok final.tracer.tally.steps, count, final⟩ ∨
      ∃ checks, stack.IsStopped context interval checks (stack.scan context interval) ∧
        Remains (count - checks * interval) (stack.scan context interval).stack final := by
  have hfuel : count ≤ stack.patience context interval := by
    unfold patience
    omega
  rcases passed_or_exists_first context interval count with
    hall | ⟨i, cause, hcount, hcause, hpassed⟩
  · have hsilent (k : ℕ) (hpos : 0 < k) (hk : k ≤ 0 + count) :
        checkAfter context interval k = none :=
      checkAfter_eq_none (fun i hi ↦ hall i (Nat.le_of_lt_succ hi)) hpos (by omega)
    left
    rw [scan, h.scanFrom_of_passed hfuel hsilent, Nat.zero_add]
    rfl
  · have hsilent (k : ℕ) (hpos : 0 < k) (hlt : k < 0 + (i + 1) * interval) :
        checkAfter context interval k = none := by
      refine checkAfter_eq_none (fun j hj ↦ hpassed j ?_) hpos (by rwa [Nat.zero_add] at hlt)
      exact Nat.lt_of_succ_lt_succ (Nat.lt_of_mul_lt_mul_right hj)
    have hcheck : checkAfter context interval (0 + (i + 1) * interval) = some cause := by
      rw [Nat.zero_add, checkAfter_mul hinterval, hcause]
    obtain ⟨last, hremains, hrun⟩ := h.scanFrom_of_stopped hfuel
      (Nat.mul_pos (Nat.succ_pos i) hinterval) hcount hsilent hcheck
    obtain ⟨made, hmade, htimes⟩ :=
      exists_nextTimes_scanFrom context interval (stack.patience context interval) 0 stack
    rw [hrun] at hmade htimes
    obtain rfl : (i + 1) * interval = made := by simpa using hmade
    have hscan : stack.scan context interval =
        ⟨.error (.context cause), (i + 1) * interval, last⟩ := by
      rw [scan, hrun, Nat.zero_add]
      rfl
    right
    rw [hscan]
    exact ⟨i + 1, ⟨Nat.succ_pos i, fun j hj ↦ hpassed j (by omega), ⟨cause, hcause, rfl⟩, rfl,
      htimes⟩, hremains⟩

/-- A stack that has been stopped on its way has the rest of the way to go. -/
theorem Interrupted.exists_remains (h : stack.Interrupted last) {count : ℕ}
    (hremains : Remains count stack final) (hle : count ≤ 4 * stack.tracer.mask.size) :
    ∃ rest, rest ≤ 4 * last.tracer.mask.size ∧ Remains rest last final := by
  induction h with
  | refl => exact ⟨count, hle, hremains⟩
  | scan _ hinterval hresult ih =>
    obtain ⟨rest, hrest, hremains⟩ := ih
    rcases hremains.scan_cases hrest hinterval _ with hscan | ⟨checks, -, hstopped⟩
    · rw [hscan] at hresult
      cases hresult
    · refine ⟨_, ?_, hstopped⟩
      rw [← hstopped.mask_eq, hremains.mask_eq]
      omega

/-- From a boundary side a scan comes to an end, and so do scans that are stopped on the way and
taken up again: each stopped scan has made whole intervals of plain steps, and the first one that is
not stopped leaves the same stack and gives the same count as a single scan would have done. -/
theorem scan_resumed (h : stack.IsUnderway) :
    ∃ count final,
      (∀ interval, 0 < interval →
        stack.scan .silent interval = ⟨.ok final.tracer.tally.steps, count, final⟩) ∧
      ∀ last, stack.Interrupted last → ∀ context interval, 0 < interval →
        (∃ rest, last.scan context interval = ⟨.ok final.tracer.tally.steps, rest, final⟩) ∨
          ∃ checks, last.IsStopped context interval checks (last.scan context interval) := by
  obtain ⟨count, final, hle, hremains⟩ := h.exists_remains
  refine ⟨count, final, fun interval hinterval ↦ ?_, fun last hlast context interval hinterval ↦ ?_⟩
  · rcases hremains.scan_cases hle hinterval .silent with hscan | ⟨checks, hstopped, -⟩
    · exact hscan
    · obtain ⟨cause, hcause, -⟩ := hstopped.result_eq
      cases hcause
  · obtain ⟨rest, hrest, hremains⟩ := hlast.exists_remains hremains hle
    rcases hremains.scan_cases hrest hinterval context with hscan | ⟨checks, hstopped, -⟩
    · exact .inl ⟨rest, hscan⟩
    · exact .inr ⟨checks, hstopped⟩

theorem scan_resumed_target :
    let tracer := Tracer.new .target .null .straight (.fresh Mask.target.size .main)
    let stack := (bare tracer).nextBoundary.2
    stack.IsUnderway ∧ ∃ count final,
      (∀ interval, 0 < interval →
        stack.scan .silent interval = ⟨.ok final.tracer.tally.steps, count, final⟩) ∧
      ∀ last, stack.Interrupted last → ∀ context interval, 0 < interval →
        (∃ rest, last.scan context interval = ⟨.ok final.tracer.tally.steps, rest, final⟩) ∨
          ∃ checks, last.IsStopped context interval checks (last.scan context interval) := by
  intro tracer stack
  have hflag : (bare tracer).nextBoundary.1 = true := by decide +kernel
  have hposition : stack.tracer.position? = some ⟨0, 0, .left⟩ := by decide +kernel
  have hboundary : stack.tracer.mask.IsBoundary ⟨0, 0, .left⟩ := by decide +kernel
  have hunderway : stack.IsUnderway := .found (Prod.fst_eq_iff.1 hflag) hposition hboundary
  exact ⟨hunderway, scan_resumed hunderway⟩

end Stack

end ContourTracing
