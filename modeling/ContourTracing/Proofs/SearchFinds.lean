import ContourTracing.Proofs.ClosedWalk
import ContourTracing.Proofs.Exhaustion
import ContourTracing.Proofs.Reachable
import ContourTracing.Proofs.Transparency

/-!
# Where a search leads

Wherever a tracer has been left and whatever its buffers hold, a search without a memory or among
brackets comes to boundary sides only, since the next run edge after any position is one. A find is
therefore the start of a circuit, and the scan from it comes to an end. In the main mode a find
need not lie on a boundary, but it lies on a pixel of the rectangle.
-/

namespace ContourTracing

/-! ## Each kind of search -/

namespace Tracer

variable (tracer : Tracer)

theorem nextSingle_cases : tracer.nextSingle = (false, tracer) ∨
    ∃ e, tracer.mask.IsBoundary e ∧ tracer.nextSingle = (true, tracer.place e) := by
  rw [nextSingle]
  split
  · next e hnext => exact .inr ⟨e, (Mask.nextRunEdge_eq_some hnext).1, rfl⟩
  · exact .inl rfl

theorem nextUntraced_cases (pair : BracketPair) (active : BoundaryKind) (level : ℤ) :
    ∃ active' level',
      tracer.nextUntraced pair active level =
          (false, { tracer with memory := .brackets pair active' level' }) ∨
        ∃ found e, tracer.mask.IsBoundary e ∧ tracer.nextUntraced pair active level =
          (found, { tracer.place e with memory := .brackets pair active' level' }) := by
  have hstart (e : Position) (he : (Sweep.mk tracer.position? none level).edge = some e) :
      tracer.mask.IsBoundary e := by
    cases he
  have hends := pair.ends_sweep tracer.mask ⟨tracer.position?, none, level⟩
  obtain ⟨hedge, hfound⟩ := BracketPair.isBoundary_of_ends hends hstart
  simp only [nextUntraced]
  split
  · next e he => exact ⟨_, _, .inr ⟨_, e, hedge e he, rfl⟩⟩
  · next hnone =>
    have hnot := mt hfound (not_not.2 hnone)
    rw [Bool.not_eq_true] at hnot
    rw [hnot]
    exact ⟨_, _, .inl rfl⟩

theorem nextOutermost_cases {cells : Cells} (h : tracer.memory = .filled cells) :
    ∃ cells', cells'.size = cells.size ∧
      (tracer.nextOutermost cells = (false, { tracer with memory := .filled cells' }) ∨
        ∃ e, tracer.mask.Contains e.x e.y ∧
          tracer.nextOutermost cells =
            (true, { tracer.place e with memory := .filled cells' })) := by
  have hsingle : ∃ cells', cells'.size = cells.size ∧
      (tracer.nextSingle = (false, { tracer with memory := .filled cells' }) ∨
        ∃ e, tracer.mask.Contains e.x e.y ∧
          tracer.nextSingle = (true, { tracer.place e with memory := .filled cells' })) := by
    refine ⟨cells, rfl, ?_⟩
    rcases tracer.nextSingle_cases with heq | ⟨e, he, heq⟩
    · exact .inl (by rw [heq, ← h])
    · exact .inr ⟨e, Mask.contains_of_isBoundary he, by rw [heq, ← h]; rfl⟩
  simp only [nextOutermost]
  split
  · exact ⟨cells, rfl, .inl (by rw [← h])⟩
  · next hsize =>
    obtain ⟨hkept, hfound⟩ := Cells.of_ends (Cells.ends_fillFrom hsize cells tracer.index)
    split
    · split
      · next index hindex =>
        have hslot : 2 * index < 2 * tracer.mask.size :=
          Nat.mul_lt_mul_of_pos_left (hfound index hindex).2 two_pos
        have hcontains := Mask.contains_atSlot hslot
        exact ⟨_, hkept, .inr ⟨_, hcontains, rfl⟩⟩
      · exact ⟨_, hkept, .inl rfl⟩
    · exact hsingle

/-- A search leaves the tracer where it is or puts it on a pixel of the rectangle, and at a boundary
side unless in the main mode. Its buffers keep their sizes. -/
theorem nextBoundary_cases :
    ∃ memory : Memory, memory.buffers.map Array.size = tracer.memory.buffers.map Array.size ∧
      (tracer.nextBoundary = (false, { tracer with tally := {}, memory := memory }) ∨
        ∃ found e, tracer.mask.Contains e.x e.y ∧
          (tracer.memory.mode ≠ .main → tracer.mask.IsBoundary e) ∧
            tracer.nextBoundary = (found, { tracer.place e with memory := memory })) := by
  cases hmemory : tracer.memory with
  | nothing =>
    refine ⟨.nothing, rfl, ?_⟩
    simp only [nextBoundary, hmemory]
    rcases tracer.nextSingle_cases with heq | ⟨e, he, heq⟩
    · exact .inl (by rw [heq, ← hmemory]; rfl)
    · exact .inr ⟨true, e, Mask.contains_of_isBoundary he, fun _ ↦ he,
        by rw [heq, ← hmemory]; rfl⟩
  | brackets pair active level =>
    obtain ⟨active', level', hcases⟩ := tracer.nextUntraced_cases pair active level
    refine ⟨.brackets pair active' level', rfl, ?_⟩
    simp only [nextBoundary, hmemory]
    rcases hcases with heq | ⟨found, e, he, heq⟩
    · exact .inl (by rw [heq]; rfl)
    · exact .inr ⟨found, e, Mask.contains_of_isBoundary he, fun _ ↦ he, by rw [heq]; rfl⟩
  | filled cells =>
    obtain ⟨cells', hsize, hcases⟩ := tracer.nextOutermost_cases hmemory
    refine ⟨.filled cells', by simp [Memory.buffers, hsize], ?_⟩
    simp only [nextBoundary, hmemory]
    rcases hcases with heq | ⟨e, he, heq⟩
    · exact .inl (by rw [heq]; rfl)
    · exact .inr ⟨true, e, he, fun hmode ↦ absurd rfl hmode, by rw [heq]; rfl⟩

variable {tracer} {found changed : Tracer}

theorem exists_place_of_found (h : tracer.nextBoundary = (true, found)) :
    ∃ s memory, (tracer.memory.mode ≠ .main → tracer.mask.IsBoundary s) ∧
      found = { tracer.place s with memory := memory } := by
  obtain ⟨memory, -, heq | ⟨flag, s, -, hboundary, heq⟩⟩ := tracer.nextBoundary_cases
  · rw [h] at heq
    cases (Prod.mk.inj heq).1
  · exact ⟨s, memory, hboundary, (Prod.mk.inj (h.symm.trans heq)).2⟩

/-! ## After any operations -/

theorem Change.mask_eq (h : tracer.Change changed) : changed.mask = tracer.mask := by
  cases h with
  | next hnext =>
    rw [Tracer.next] at hnext
    split at hnext
    · cases hnext
    · cases hnext
      split <;> rfl
  | search =>
    obtain ⟨memory, -, heq | ⟨found, e, -, -, heq⟩⟩ := tracer.nextBoundary_cases
    · rw [heq]
    · rw [heq]
      rfl
  | _ => rfl

theorem Change.mode_eq (h : tracer.Change changed) :
    changed.memory.mode = tracer.memory.mode := by
  cases h with
  | next hnext => exact mode_next hnext
  | search => exact tracer.mode_nextBoundary
  | rewrite hmemory => exact hmemory.mode_eq
  | _ => rfl

theorem Changes.mask_eq (h : tracer.Changes changed) : changed.mask = tracer.mask :=
  h.invariant (fun reached ↦ reached.mask = tracer.mask)
    (fun _ _ hchange hinv ↦ hchange.mask_eq.trans hinv) rfl

theorem Changes.mode_eq (h : tracer.Changes changed) :
    changed.memory.mode = tracer.memory.mode :=
  h.invariant (fun reached ↦ reached.memory.mode = tracer.memory.mode)
    (fun _ _ hchange hinv ↦ hchange.mode_eq.trans hinv) rfl

end Tracer

namespace Stack

variable {stack reached found : Stack} {s : Position}

theorem tracer_nextBoundary {flag : Bool} (h : stack.nextBoundary = (flag, found)) :
    stack.tracer.nextBoundary = (flag, found.tracer) := by
  obtain ⟨hflag, hstack⟩ := Prod.mk.inj h
  exact Prod.ext hflag (congrArg Stack.tracer hstack)

/-- With or without layers, a scan from a boundary side comes back to it. -/
theorem exists_scan_eq (h : stack.tracer.mask.IsBoundary s)
    (hplacement : stack.tracer.placement = some (.initial s)) (htally : stack.tracer.tally = {})
    (interval : ℕ) : ∃ count last, stack.scan .silent interval = ⟨.ok count, count, last⟩ ∧
      last.tracer.position? = some s := by
  obtain ⟨hscan, -⟩ := Tracer.scan_eq h hplacement interval
  have hunwrap : (stack.scan .silent interval).unwrap =
      (bare stack.tracer).scan .silent interval := (stack.unwrap_scan .silent interval).symm
  rw [hscan, Tracer.steps_scanned htally] at hunwrap
  generalize stack.scan .silent interval = run at hunwrap ⊢
  obtain ⟨result, steps, last⟩ := run
  obtain ⟨rfl, rfl, hlast⟩ := ScanRun.mk.inj hunwrap
  have htracer : last.tracer = stack.tracer.scanned s := congrArg Stack.tracer hlast
  have hposition : stack.tracer.position? = some s := by
    rw [Tracer.position?, hplacement]
    rfl
  exact ⟨_, last, rfl, by rw [htracer, Tracer.position?_scanned hposition]⟩

/-- Whatever has been done with a tracer that has no memory or works with brackets, and whatever
has become of its buffers: if a search finds something, then the tracer stands at a boundary side of
its mask, with no step made and nothing counted, and a scan without a context ends. -/
theorem exists_scan_of_found (hmode : stack.tracer.memory.mode ≠ .main)
    (h : stack.Reaches reached) (hfound : reached.nextBoundary = (true, found)) :
    ∃ s, stack.tracer.mask.IsBoundary s ∧ found.tracer.mask = stack.tracer.mask ∧
      found.tracer.placement = some (.initial s) ∧ found.tracer.tally = {} ∧
        ∀ interval, ∃ count last, found.scan .silent interval = ⟨.ok count, count, last⟩ ∧
          last.tracer.position? = some s := by
  have hmask : reached.tracer.mask = stack.tracer.mask := h.changes.mask_eq
  have hreached : reached.tracer.memory.mode ≠ .main := by rwa [h.changes.mode_eq]
  obtain ⟨s, memory, hboundary, htracer⟩ :=
    Tracer.exists_place_of_found (tracer_nextBoundary hfound)
  have hs := hboundary hreached
  have hfoundMask : found.tracer.mask = reached.tracer.mask := by
    rw [htracer]
    rfl
  have hplacement : found.tracer.placement = some (.initial s) := by
    rw [htracer]
    rfl
  have htally : found.tracer.tally = {} := by
    rw [htracer]
    rfl
  refine ⟨s, hmask ▸ hs, hfoundMask.trans hmask, hplacement, htally, ?_⟩
  exact exists_scan_eq (hfoundMask ▸ hs) hplacement htally

/-- The tracer is put on a side between two set pixels, and the scan from there is stopped. -/
theorem exists_scan_of_found_target :
    let stack := bare (.new .target .null .straight (.fresh Mask.target.size .all))
    let put := (stack.perform (.goTo (.int 0) (.int 1) (.member (.side .top)))).stack
    let reached := (put.perform (.scan (.stopping .cancelled) (.int 3))).stack
    stack.tracer.memory.mode ≠ .main ∧ stack.Reaches reached ∧
      reached.nextBoundary = (true, reached.nextBoundary.2) ∧
        ∃ s, Mask.target.IsBoundary s ∧ reached.nextBoundary.2.tracer.mask = Mask.target ∧
          reached.nextBoundary.2.tracer.placement = some (.initial s) ∧
            reached.nextBoundary.2.tracer.tally = {} ∧
              ∀ interval, ∃ count last,
                reached.nextBoundary.2.scan .silent interval = ⟨.ok count, count, last⟩ ∧
                  last.tracer.position? = some s := by
  intro stack put reached
  have hmode : stack.tracer.memory.mode ≠ .main := by decide
  have hput : stack.Reaches put := .perform (.goTo (.int 0) (.int 1) (.member (.side .top))) .refl
  have hreaches : stack.Reaches reached := hput.perform (.scan (.stopping .cancelled) (.int 3))
  have hflag : reached.nextBoundary.1 = true := by decide +kernel
  have hfound : reached.nextBoundary = (true, reached.nextBoundary.2) := Prod.fst_eq_iff.1 hflag
  exact ⟨hmode, hreaches, hfound, exists_scan_of_found hmode hreaches hfound⟩

end Stack

end ContourTracing
