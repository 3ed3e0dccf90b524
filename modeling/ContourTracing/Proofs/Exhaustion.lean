import ContourTracing.Proofs.Refilling
import ContourTracing.Proofs.RunEdges
import ContourTracing.Proofs.SearchRounds

/-!
# Searches after the end

When the loop has ended, the search can be called again. Without a memory and among brackets it has
come to the last run edge and goes on finding nothing. In the main mode it fills once more from the
last start, and it finds nothing as often as it is called only if no row has two set pixels from
there on.
-/

namespace ContourTracing

/-! ## The mode of a tracer -/

theorem Memory.mode_record (memory : Memory) (mask : Mask) (position : Position) :
    (memory.record mask position).mode = memory.mode := by
  cases memory <;> rfl

theorem Memory.mode_fresh (size : ℕ) (mode : ScanMode) : (Memory.fresh size mode).mode = mode := by
  cases mode <;> rfl

theorem Tracer.mode_next {tracer next : Tracer} (h : tracer.next = .ok next) :
    next.memory.mode = tracer.memory.mode := by
  rw [Tracer.next] at h
  split at h
  · cases h
  · cases h
    split
    · rfl
    · exact tracer.memory.mode_record _ _

theorem Stack.mode_next {stack next : Stack} (h : stack.next = .ok next) :
    next.tracer.memory.mode = stack.tracer.memory.mode := by
  obtain ⟨layers, tracer⟩ := stack
  rw [Stack.next] at h
  split at h
  · next hnext =>
    cases h
    exact Tracer.mode_next hnext
  · cases h

theorem Stack.mode_scanFrom (context : Context) (interval fuel steps : ℕ) (stack : Stack) :
    (stack.scanFrom context interval fuel steps).stack.tracer.memory.mode =
      stack.tracer.memory.mode := by
  induction fuel generalizing steps stack with
  | zero => rfl
  | succ fuel ih =>
    rw [scanFrom]
    split
    · rfl
    · split
      · rfl
      · next hnext =>
        split
        · exact mode_next hnext
        · exact (ih _ _).trans (mode_next hnext)

namespace Tracer

variable {tracer found last : Tracer} {mode : ScanMode}

theorem mode_tour {next : Tracer} {tour : Tour} (h : found.tour? = some (tour, next)) :
    next.memory.mode = found.memory.mode := by
  simp only [tour?] at h
  split at h
  · cases h
    exact Stack.mode_scanFrom _ _ _ _ _
  · cases h

theorem mode_nextBoundary (tracer : Tracer) :
    tracer.nextBoundary.2.memory.mode = tracer.memory.mode := by
  cases hmemory : tracer.memory with
  | nothing =>
    simp only [nextBoundary, hmemory, nextSingle]
    split <;> exact congrArg Memory.mode hmemory
  | brackets pair active level =>
    simp only [nextBoundary, hmemory, nextUntraced]
    split <;> rfl
  | filled cells =>
    simp only [nextBoundary, hmemory, nextOutermost, nextSingle]
    split
    · exact congrArg Memory.mode hmemory
    · split
      · split <;> rfl
      · split <;> exact congrArg Memory.mode hmemory

/-- No round of the loop changes the mode. -/
theorem Loop.exists_stop_of_mode {tours : List Tour} (h : tracer.Loop tours last)
    (hmode : tracer.memory.mode = mode) :
    ∃ final : Tracer, final.memory.mode = mode ∧ final.nextBoundary = (false, last) := by
  apply h.exists_stop (fun next ↦ next.memory.mode = mode) _ hmode
  intro tracer found next tour hinv hfound htour
  have hsearch := tracer.mode_nextBoundary
  rw [hfound, hinv] at hsearch
  exact (mode_tour htour).trans hsearch

/-! ## Further searches -/

/-- The search finds nothing, however often it is tried. -/
def IsExhausted (tracer : Tracer) : Prop :=
  ∀ n, ((fun tracer : Tracer ↦ tracer.nextBoundary.2)^[n] tracer).nextBoundary.1 = false

theorem isExhausted_iff : tracer.IsExhausted ↔
    tracer.nextBoundary.1 = false ∧ tracer.nextBoundary.2.IsExhausted := by
  constructor
  · exact fun h ↦ ⟨h 0, fun n ↦ h (n + 1)⟩
  · rintro ⟨hfirst, hrest⟩ (_ | n)
    · exact hfirst
    · exact hrest n

theorem isExhausted_of_nextBoundary_eq (h : tracer.nextBoundary = (false, tracer)) :
    tracer.IsExhausted := by
  intro n
  have hfixed : (fun tracer : Tracer ↦ tracer.nextBoundary.2)^[n] tracer = tracer :=
    Function.iterate_fixed (congrArg Prod.snd h) n
  rw [hfixed, h]

end Tracer

/-! ### Without a memory or among brackets -/

namespace Tracer

variable {tracer last : Tracer} {cells : Cells} {a b : ℕ}

theorem nextBoundary_of_nextRunEdge (hmode : tracer.memory.mode ≠ .main)
    (hnone : tracer.mask.nextRunEdge tracer.position? = none) :
    tracer.nextBoundary = (false, tracer.resetCounters) := by
  cases hmemory : tracer.memory with
  | nothing => simp only [nextBoundary, hmemory, nextSingle, hnone]
  | brackets pair active level =>
    simp only [nextBoundary, hmemory, nextUntraced, BracketPair.sweep, Option.none_or, hnone,
      resetCounters]
  | filled cells =>
    rw [hmemory] at hmode
    exact absurd rfl hmode

/-- A search of these modes that finds nothing has come to the last run edge. -/
theorem nextRunEdge_of_nextBoundary (hmode : tracer.memory.mode ≠ .main)
    (h : tracer.nextBoundary = (false, last)) :
    last.mask.nextRunEdge last.position? = none ∧ last.resetCounters = last := by
  cases hmemory : tracer.memory with
  | nothing =>
    simp only [nextBoundary, hmemory, nextSingle] at h
    split at h
    · cases h
    · next hnone =>
      cases h
      exact ⟨hnone, rfl⟩
  | brackets pair active level =>
    have hsearch := tracer.nextUntraced_fst pair active level
    simp only [nextBoundary, hmemory, Prod.mk.injEq] at h
    rw [h.1] at hsearch
    have hends := pair.ends_sweep tracer.mask ⟨tracer.position?, none, level⟩
    have hnone := BracketPair.nextRunEdge_of_ends hends hsearch.symm
    obtain rfl := h.2
    simp only [nextUntraced]
    split
    · next hedge =>
      rw [hedge] at hnone
      exact ⟨hnone, rfl⟩
    · next hedge =>
      rw [hedge] at hnone
      exact ⟨hnone, rfl⟩
  | filled cells =>
    rw [hmemory] at hmode
    exact absurd rfl hmode

/-- In the single mode and in the mode for all boundaries the end is final. -/
theorem isExhausted_of_mode_ne (hmode : tracer.memory.mode ≠ .main)
    (h : tracer.nextBoundary = (false, last)) : last.IsExhausted := by
  obtain ⟨hnone, hreset⟩ := nextRunEdge_of_nextBoundary hmode h
  have hlast : last.memory.mode ≠ .main := by
    have hkept := tracer.mode_nextBoundary
    rw [h] at hkept
    rwa [hkept]
  apply isExhausted_of_nextBoundary_eq
  rw [nextBoundary_of_nextRunEdge hlast hnone, hreset]

/-! ### In the main mode -/

/-- No row has two set pixels from the current pixel on. -/
def IsSparseAhead (tracer : Tracer) : Prop :=
  ∀ p ∈ tracer.mask.objectPixels, ∀ q ∈ tracer.mask.objectPixels,
    tracer.index ≤ tracer.mask.index p.1 p.2 → tracer.index ≤ tracer.mask.index q.1 q.2 →
      p.2 = q.2 → p = q

theorem isSparseAhead_iff :
    tracer.IsSparseAhead ↔ ∀ a b, tracer.index ≤ a → ¬ tracer.mask.IsGap a b := by
  constructor
  · intro h a b hle hgap
    obtain ⟨p, hp, q, hq, rfl, rfl, hrow⟩ := hgap.exists_pixels
    have hlt := hgap.lt
    rw [h p hp q hq hle (hle.trans hlt.le) hrow] at hlt
    exact lt_irrefl _ hlt
  · intro h p hp q hq hle hle' hrow
    rcases lt_trichotomy (tracer.mask.index p.1 p.2) (tracer.mask.index q.1 q.2) with
      hlt | heq | hgt
    · obtain ⟨b, hgap⟩ := Mask.exists_isGap_of_lt hp hq hrow hlt
      exact absurd hgap (h _ b hle)
    · exact tracer.mask.index_injOn (Mask.contains_of_mem_objectPixels hp)
        (Mask.contains_of_mem_objectPixels hq) heq
    · obtain ⟨b, hgap⟩ := Mask.exists_isGap_of_lt hq hp hrow.symm hgt
      exact absurd hgap (h _ b hle')

/-- A tracer of the main mode that has come to its last object. -/
structure HasMarkedAhead (tracer : Tracer) (cells : Cells) : Prop where
  memory_eq : tracer.memory = .filled cells
  bit_index : tracer.mask.bit tracer.index = true
  marksFrom : cells.MarksFrom tracer.mask tracer.index

namespace HasMarkedAhead

/-- A further search finds something only if there is a gap, and counts down the numbers in all
gaps if it finds nothing. -/
theorem nextBoundary_cases (h : tracer.HasMarkedAhead cells) :
    (tracer.nextBoundary.1 = true ∧ ∃ a b, tracer.index ≤ a ∧ tracer.mask.IsGap a b) ∨
      ∃ next filled, tracer.nextBoundary = (false, next) ∧ next.HasMarkedAhead filled ∧
        next.mask = tracer.mask ∧ next.index = tracer.index ∧
        ∀ a b, tracer.index ≤ a → tracer.mask.IsGap a b →
          filled.number a b < cells.number a b := by
  have hsize : tracer.mask.size ≠ 0 := (Nat.zero_lt_of_lt (Mask.lt_size_of_bit h.bit_index)).ne'
  have hmarked := h.marksFrom _ le_rfl h.bit_index
  have hfill := h.marksFrom.fillFrom_cases le_rfl h.bit_index (Nat.sub_le _ _)
  simp only [nextBoundary, h.memory_eq, nextOutermost, if_neg hsize, hmarked, if_true]
  cases hresult : cells.fillFrom tracer.mask tracer.mask.size tracer.index with
  | mk filled found =>
    rw [hresult] at hfill
    rcases hfill with ⟨hsome, hgap⟩ | ⟨hnone, hmarks, hless⟩
    · obtain ⟨index, rfl⟩ := Option.isSome_iff_exists.1 hsome
      exact .inl ⟨rfl, hgap⟩
    · obtain rfl : found = none := hnone
      exact .inr ⟨_, filled, rfl, ⟨rfl, h.bit_index, hmarks⟩, rfl, rfl, hless⟩

theorem not_isExhausted (h : tracer.HasMarkedAhead cells) (hle : tracer.index ≤ a)
    (hgap : tracer.mask.IsGap a b) : ¬ tracer.IsExhausted := by
  -- on the number in the gap
  induction hnumber : cells.number a b using Nat.strong_induction_on generalizing tracer cells with
  | h number ih =>
    subst hnumber
    intro hexhausted
    obtain ⟨hfirst, hrest⟩ := isExhausted_iff.1 hexhausted
    rcases h.nextBoundary_cases with
      ⟨hfound, -⟩ | ⟨next, filled, hnext, hahead, hmask, hindex, hless⟩
    · rw [hfirst] at hfound
      cases hfound
    · rw [hnext] at hrest
      exact ih _ (hless a b hle hgap) hahead (hindex ▸ hle) (hmask ▸ hgap) rfl hrest

theorem isExhausted (h : tracer.HasMarkedAhead cells)
    (hnone : ∀ a b, tracer.index ≤ a → ¬ tracer.mask.IsGap a b) : tracer.IsExhausted := by
  intro n
  induction n generalizing tracer cells with
  | zero =>
    rcases h.nextBoundary_cases with ⟨-, a, b, hle, hgap⟩ | ⟨next, filled, hnext, -⟩
    · exact absurd hgap (hnone a b hle)
    · exact congrArg Prod.fst hnext
  | succ n ih =>
    rcases h.nextBoundary_cases with ⟨-, a, b, hle, hgap⟩ |
      ⟨next, filled, hnext, hahead, hmask, hindex, -⟩
    · exact absurd hgap (hnone a b hle)
    · rw [Function.iterate_succ_apply, hnext]
      exact ih hahead (by rwa [hmask, hindex])

theorem isExhausted_iff (h : tracer.HasMarkedAhead cells) :
    tracer.IsExhausted ↔ tracer.IsSparseAhead := by
  rw [isSparseAhead_iff]
  exact ⟨fun hexhausted a b hle hgap ↦ h.not_isExhausted hle hgap hexhausted, h.isExhausted⟩

end HasMarkedAhead

/-- A search of the main mode that finds nothing leaves the tracer where it is. -/
theorem eq_of_nextBoundary_filled (hmemory : tracer.memory = .filled cells)
    (h : tracer.nextBoundary = (false, last)) :
    last.mask = tracer.mask ∧ last.placement = tracer.placement ∧ last.resetCounters = last := by
  simp only [nextBoundary, hmemory, nextOutermost, nextSingle] at h
  split at h
  · cases h
    exact ⟨rfl, rfl, rfl⟩
  · split at h
    · split at h
      · cases h
      · cases h
        exact ⟨rfl, rfl, rfl⟩
    · split at h
      · cases h
      · cases h
        exact ⟨rfl, rfl, rfl⟩

end Tracer

/-- Two pixels of a row. -/
def Mask.pair : Mask where
  width := 2
  height := 1
  bits := #[true, true]
  size_bits := rfl

namespace Tracer

variable {mask : Mask} {connectivity : Connectivity} {tracer last : Tracer} {n : ℕ}
  {mode : ScanMode}

namespace HasFilledMain

/-- Without a set pixel the tracer stands nowhere and stays there. -/
theorem nextBoundary_of_forall_not_mem (h : HasFilledMain mask connectivity n tracer)
    (hlast : tracer.nextBoundary = (false, last)) (hposition : tracer.position? = none)
    (hunset : ∀ p, p ∉ mask.objectPixels) : last.nextBoundary = (false, last) := by
  obtain ⟨hall, cells, hmemory, -, hsettled⟩ := h.isSettled_of_not_found hlast
  obtain ⟨before, hbefore, -⟩ := h.memory_eq
  obtain ⟨hmask, hplacement, hreset⟩ := eq_of_nextBoundary_filled hbefore hlast
  rw [h.mask_eq] at hmask
  have hposition' : last.position? = none := by rw [position?, hplacement, ← position?, hposition]
  have hindex : last.index = 0 := by rw [index, hposition']
  have hnone : mask.nextRunEdge last.position? = none := by
    cases hnext : mask.nextRunEdge last.position? with
    | none => rfl
    | some e =>
      obtain ⟨hb, -⟩ := Mask.nextRunEdge_eq_some hnext
      exact absurd (Mask.isBoundary_iff.1 hb).1 (hunset e.pixel)
  simp only [Tracer.nextBoundary, hmemory, Tracer.nextOutermost, nextSingle, hnone, hmask, hindex]
  split
  · rw [hreset]
  · next hsize =>
    obtain ⟨p, hp, hzero⟩ := Mask.exists_index_eq (Nat.pos_of_ne_zero hsize)
    have hunmarked : ¬ cells.isMarked 0 = true := by
      rw [← hzero, hsettled p hp (Mask.index_lt_size hp)]
      rintro ⟨e, he, -⟩
      exact hunset _ (Mask.isBoundary_iff.1 he.isStart.isBoundary).1
    rw [if_neg hunmarked, hreset]

/-- At the end of the main mode there are no set pixels, or the tracer stands at the last start
and all set pixels are marked. -/
theorem isExhausted_iff (h : HasFilledMain mask connectivity n tracer)
    (hlast : tracer.nextBoundary = (false, last)) : last.IsExhausted ↔ last.IsSparseAhead := by
  obtain ⟨hall, cells, hmemory, -, hsettled⟩ := h.isSettled_of_not_found hlast
  obtain ⟨before, hbefore, -⟩ := h.memory_eq
  obtain ⟨hmask, hplacement, -⟩ := eq_of_nextBoundary_filled hbefore hlast
  rw [h.mask_eq] at hmask
  rcases h.position_cases with ⟨hposition, rfl⟩ | ⟨e, hposition, he, -⟩
  · have hunset (p : Pixel) : p ∉ mask.objectPixels := fun hp ↦ by
      obtain ⟨e, -, hlt, -⟩ := Mask.isCovered_of_mem_objectPixels hall hp
      exact Nat.not_lt_zero _ hlt
    refine iff_of_true ?_ fun p hp ↦ ?_
    · exact isExhausted_of_nextBoundary_eq (h.nextBoundary_of_forall_not_mem hlast hposition hunset)
    · rw [hmask] at hp
      exact absurd hp (hunset p)
  · have hindex : last.index = mask.index e.x e.y := by
      rw [index, position?, hplacement, ← position?, hposition, hmask]
    have hcontains := Mask.contains_of_isBoundary he.isStart.isBoundary
    have hbit : mask.bit (mask.index e.x e.y) = true :=
      (Mask.bit_index (p := e.pixel) hcontains).trans he.isStart.isBoundary.1
    have hahead : last.HasMarkedAhead cells :=
      ⟨hmemory, by rw [hmask, hindex]; exact hbit, by rw [hmask]; exact hsettled.marksFrom hall _⟩
    exact hahead.isExhausted_iff

end HasFilledMain

theorem IsFreshForMain.exists_loop_isSparseAhead (h : tracer.IsFreshForMain) :
    ∃ tours last, tracer.Loop tours last ∧ (last.IsExhausted ↔ last.IsSparseAhead) := by
  obtain ⟨last, hloop⟩ := h.exists_loop
  obtain ⟨final, ⟨n, hfinal⟩, hstop⟩ := hloop.exists_stop
    (fun next ↦ ∃ n, HasFilledMain tracer.mask tracer.connectivity n next)
    (fun _ _ _ _ ⟨_, hinv⟩ hfound htour ↦ hinv.exists_hasFilledMain hfound htour)
    ⟨0, h.hasFilledMain⟩
  exact ⟨_, last, hloop, hfinal.isExhausted_iff hstop⟩

theorem Loop.isExhausted {tours : List Tour} (h : tracer.Loop tours last)
    (hmode : tracer.memory.mode ≠ .main) : last.IsExhausted := by
  obtain ⟨final, hfinal, hstop⟩ := h.exists_stop_of_mode rfl
  exact isExhausted_of_mode_ne (hfinal ▸ hmode) hstop

/-- After the end of the loop the search goes on finding nothing, except in the main mode: there
this depends on the rows from the last start on. -/
theorem exists_loop_isExhausted_iff (hplacement : tracer.placement = none)
    (hmemory : tracer.memory = .fresh tracer.mask.size mode) :
    ∃ tours last, tracer.Loop tours last ∧
      (last.IsExhausted ↔ (mode = .main → last.IsSparseAhead)) := by
  have hblank := Cells.isBlankFor_blank tracer.mask
  cases mode with
  | single =>
    have hfresh : tracer.IsFreshForSingle := ⟨hplacement, hmemory⟩
    obtain ⟨last, hloop⟩ := hfresh.exists_loop
    have hexhausted := hloop.isExhausted (by rw [hmemory, Memory.mode_fresh]; decide)
    exact ⟨_, last, hloop, iff_of_true hexhausted fun hmode ↦ by cases hmode⟩
  | all =>
    have hfresh : tracer.IsFreshForAll := ⟨hplacement, _, _, hmemory, hblank, hblank⟩
    obtain ⟨last, hloop⟩ := hfresh.exists_loop
    have hexhausted := hloop.isExhausted (by rw [hmemory, Memory.mode_fresh]; decide)
    exact ⟨_, last, hloop, iff_of_true hexhausted fun hmode ↦ by cases hmode⟩
  | main =>
    have hfresh : tracer.IsFreshForMain := ⟨hplacement, _, hmemory, hblank⟩
    obtain ⟨tours, last, hloop, hiff⟩ := hfresh.exists_loop_isSparseAhead
    exact ⟨tours, last, hloop, fun hexhausted _ ↦ hiff.1 hexhausted,
      fun hsparse ↦ hiff.2 (hsparse rfl)⟩

theorem exists_loop_isExhausted_iff_target :
    let tracer := new .target .null .straight (.fresh Mask.target.size .main)
    tracer.placement = none ∧ tracer.memory = .fresh tracer.mask.size .main ∧
      ∃ tours last, tracer.Loop tours last ∧
        (last.IsExhausted ↔ (ScanMode.main = .main → last.IsSparseAhead)) :=
  ⟨rfl, rfl, exists_loop_isExhausted_iff rfl rfl⟩

/-- Two pixels side by side are one object, but the search after the end finds a second one. -/
theorem exists_loop_found_again :
    let tracer := new .pair .null .straight (.fresh Mask.pair.size .main)
    ∃ tours last, tracer.Loop tours last ∧ last.nextBoundary.1 = true := by
  intro tracer
  have hfound : tracer.nextBoundary.1 = true := by decide +kernel
  have htour : tracer.nextBoundary.2.tour?.isSome = true := by decide +kernel
  have hstop : tracer.nextBoundary.2.tour?.map (·.2.nextBoundary.1) = some false := by
    decide +kernel
  have hagain : tracer.nextBoundary.2.tour?.map (·.2.nextBoundary.2.nextBoundary.1) =
      some true := by
    decide +kernel
  obtain ⟨⟨tour, next⟩, hround⟩ := Option.isSome_iff_exists.1 htour
  rw [hround, Option.map_some, Option.some.injEq] at hstop hagain
  exact ⟨[tour], next.nextBoundary.2,
    .round (Prod.ext hfound rfl) hround (.stop (Prod.ext hstop rfl)), hagain⟩

end Tracer

end ContourTracing
