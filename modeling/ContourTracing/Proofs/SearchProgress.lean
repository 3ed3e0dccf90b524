import ContourTracing.Proofs.SearchFinds

/-!
# Progress of searches

Whatever a tracer remembers, a search ends after finitely many rounds. If it finds something, it has
moved on in raster order, and if not, it has not moved back. So not more boundaries can be found one
after the other than there are slots.
-/

namespace ContourTracing

namespace Tracer

variable {tracer next : Tracer} {found : Bool}

/-- Where a tracer stands, as the slot of its side; a tracer that stands nowhere is before all
slots. -/
def key (tracer : Tracer) : ℤ :=
  match tracer.position? with
  | some s => 2 * tracer.mask.index s.x s.y + if s.side = .right then 1 else 0
  | none => -1

theorem key_eq (tracer : Tracer) :
    tracer.key = (tracer.mask.slotAfter tracer.position? : ℤ) - 1 := by
  rw [key]
  cases tracer.position? with
  | none => rfl
  | some s =>
    simp only [Mask.slotAfter, Mask.slot]
    push_cast
    ring

/-- The tracer after a sweep. -/
def afterSweep (tracer : Tracer) (pair : BracketPair) (active : BoundaryKind) (found : Bool)
    (s : Sweep) : Tracer :=
  match s.edge with
  | some edge =>
    let active := if found then BoundaryKind.ofSide edge.side else active
    { tracer.place edge with memory := .brackets pair active s.level }
  | none => { tracer with tally := {}, memory := .brackets pair active s.level }

/-- The tracer after a filling that has come to a pixel which is not marked, or to none. -/
def afterFilling (tracer : Tracer) (cells : Cells) : Option ℕ → Tracer
  | some index => { tracer.place (tracer.mask.atSlot (2 * index)) with memory := .filled cells }
  | none => { tracer with tally := {}, memory := .filled cells }

/-- How a search comes to its end, in as many rounds as it takes. -/
inductive Searches (tracer : Tracer) : Bool → Tracer → Prop
  | nothing : tracer.memory = .nothing →
    Searches tracer tracer.nextSingle.1 tracer.nextSingle.2.resetCounters
  | brackets {pair : BracketPair} {active : BoundaryKind} {level : ℤ} {found : Bool} {s : Sweep} :
    tracer.memory = .brackets pair active level →
    Ends (pair.sweepRound tracer.mask) ⟨tracer.position?, none, level⟩ (found, s) →
    Searches tracer found (tracer.afterSweep pair active found s)
  | empty {cells : Cells} : tracer.memory = .filled cells → tracer.mask.size = 0 →
    Searches tracer false tracer.resetCounters
  | unmarked {cells : Cells} : tracer.memory = .filled cells → tracer.mask.size ≠ 0 →
    cells.isMarked tracer.index = false →
    Searches tracer tracer.nextSingle.1 tracer.nextSingle.2.resetCounters
  | filled {cells cells' : Cells} {found : Option ℕ} : tracer.memory = .filled cells →
    tracer.mask.size ≠ 0 → cells.isMarked tracer.index = true →
    Ends (Cells.fillRound tracer.mask) (cells, tracer.index) (cells', found) →
    Searches tracer found.isSome (tracer.afterFilling cells' found)

theorem nextBoundary_eq_of_searches (h : tracer.Searches found next) :
    tracer.nextBoundary = (found, next) := by
  cases h with
  | nothing hmemory => simp only [nextBoundary, hmemory]
  | @brackets pair _ level _ s hmemory hends =>
    have hsweep := (pair.ends_sweep tracer.mask ⟨tracer.position?, none, level⟩).unique hends
    simp only [nextBoundary, hmemory, nextUntraced, hsweep, afterSweep]
    cases s.edge <;> rfl
  | empty hmemory hsize => simp only [nextBoundary, hmemory, nextOutermost, if_pos hsize]
  | unmarked hmemory hsize hunmarked =>
    simp only [nextBoundary, hmemory, nextOutermost, if_neg hsize, hunmarked, Bool.false_eq_true,
      if_false]
  | @filled cells _ found hmemory hsize hmarked hends =>
    have hfill := (Cells.ends_fillFrom hsize cells tracer.index).unique hends
    simp only [nextBoundary, hmemory, nextOutermost, if_neg hsize, hmarked, if_true, hfill,
      afterFilling]
    cases found <;> rfl

theorem exists_searches (tracer : Tracer) : ∃ found next, tracer.Searches found next := by
  cases hmemory : tracer.memory with
  | nothing => exact ⟨_, _, .nothing hmemory⟩
  | brackets pair active level =>
    exact ⟨_, _, .brackets hmemory (pair.ends_sweep tracer.mask ⟨tracer.position?, none, level⟩)⟩
  | filled cells =>
    by_cases hsize : tracer.mask.size = 0
    · exact ⟨_, _, .empty hmemory hsize⟩
    · cases hmarked : cells.isMarked tracer.index with
      | false => exact ⟨_, _, .unmarked hmemory hsize hmarked⟩
      | true => exact ⟨_, _, .filled hmemory hsize hmarked (Cells.ends_fillFrom hsize cells _)⟩

/-- Every search comes to an end, which is that of `nextBoundary`. -/
theorem searches_iff : tracer.Searches found next ↔ tracer.nextBoundary = (found, next) := by
  refine ⟨nextBoundary_eq_of_searches, fun h ↦ ?_⟩
  obtain ⟨found', next', hsearches⟩ := tracer.exists_searches
  rw [nextBoundary_eq_of_searches hsearches] at h
  cases h
  exact hsearches

theorem nextSingle_progress (tracer : Tracer) : tracer.mask.slotAfter tracer.position? +
    tracer.nextSingle.1.toNat ≤ tracer.mask.slotAfter tracer.nextSingle.2.position? := by
  rw [nextSingle]
  split
  · next hnext =>
    obtain ⟨-, -, hle, -⟩ := Mask.nextRunEdge_eq_some hnext
    exact Nat.succ_le_succ hle
  · exact le_rfl

theorem slotAfter_le_index (tracer : Tracer) :
    tracer.mask.slotAfter tracer.position? ≤ 2 * tracer.index + 2 := by
  rw [index]
  cases tracer.position? with
  | none => exact Nat.zero_le _
  | some s =>
    simp only [Mask.slotAfter, Mask.slot]
    split <;> omega

/-- A search does not go back, and it has moved on if it finds something. -/
theorem Searches.slotAfter_add_le (h : tracer.Searches found next) :
    tracer.mask.slotAfter tracer.position? + found.toNat ≤
      tracer.mask.slotAfter next.position? := by
  cases h with
  | nothing _ => exact tracer.nextSingle_progress
  | @brackets _ _ _ _ s _ hends =>
    obtain ⟨hstart, hle⟩ := BracketPair.slotAfter_add_le_of_ends hends
    obtain ⟨start, edge, level⟩ := s
    obtain rfl : start = tracer.position? := hstart
    cases edge <;> exact hle
  | empty _ _ => exact le_rfl
  | unmarked _ _ _ => exact tracer.nextSingle_progress
  | @filled _ _ found _ _ _ hends =>
    cases found with
    | none => exact le_rfl
    | some index =>
      have hlt : tracer.index < index := ((Cells.of_ends hends).2 index rfl).1
      calc
        _ ≤ 2 * tracer.index + 2 + 1 := Nat.succ_le_succ tracer.slotAfter_le_index
        _ ≤ 2 * index + 1 := by omega
        _ = tracer.mask.slot (tracer.mask.atSlot (2 * index)) + 1 := by rw [Mask.slot_atSlot]

theorem Searches.mask_eq (h : tracer.Searches found next) : next.mask = tracer.mask := by
  obtain rfl : tracer.nextBoundary.2 = next := congrArg Prod.snd (nextBoundary_eq_of_searches h)
  exact Change.mask_eq (.search tracer)

theorem Searches.key_add_le (h : tracer.Searches found next) :
    tracer.key + (found.toNat : ℤ) ≤ next.key := by
  rw [key_eq, key_eq, h.mask_eq]
  have hle := h.slotAfter_add_le
  omega

/-- What a search has found lies in the rectangle. -/
theorem slotAfter_le_of_found (h : tracer.nextBoundary = (true, next)) :
    tracer.mask.slotAfter next.position? ≤ 2 * tracer.mask.size := by
  obtain ⟨memory, -, heq | ⟨flag, s, hcontains, -, heq⟩⟩ := tracer.nextBoundary_cases
  · rw [h] at heq
    cases heq
  · rw [h] at heq
    cases heq
    have hindex : tracer.mask.index s.x s.y < tracer.mask.size :=
      Mask.index_lt_size (p := s.pixel) hcontains
    change tracer.mask.slotAfter (some s) ≤ 2 * tracer.mask.size
    simp only [Mask.slotAfter, Mask.slot]
    split <;> omega

/-- A run of searches sees so many boundaries. Between two searches anything may happen to the
tracer, if only it is back then on the side to which the first one has led. -/
inductive Sees : Tracer → ℕ → Prop
  | done (tracer : Tracer) : Sees tracer 0
  | search {tracer next back : Tracer} {found : Bool} {count : ℕ} :
    tracer.nextBoundary = (found, next) → next.Changes back → back.position? = next.position? →
      Sees back count → Sees tracer (count + found.toNat)

/-- A run sees no more boundaries than there are slots ahead of its begin. -/
theorem Sees.le_sub {count : ℕ} (h : tracer.Sees count) :
    count ≤ 2 * tracer.mask.size - tracer.mask.slotAfter tracer.position? := by
  induction h with
  | done => exact Nat.zero_le _
  | @search tracer next back found count hsearch hchanges hback _ ih =>
    have hmask : next.mask = tracer.mask := (searches_iff.2 hsearch).mask_eq
    have hprogress := (searches_iff.2 hsearch).slotAfter_add_le
    rw [hchanges.mask_eq, hback, hmask] at ih
    cases found with
    | false =>
      simp only [Bool.toNat_false, Nat.add_zero] at hprogress ⊢
      omega
    | true =>
      have hinside := slotAfter_le_of_found hsearch
      simp only [Bool.toNat_true] at hprogress ⊢
      omega

/-- Whatever its mode and its buffers, a search comes to exactly one end. If it finds something, it
has moved on; if not, it has not moved back. A run of searches that goes back to each side which it
has found sees no more than two boundaries for each pixel. -/
theorem search_progress (tracer : Tracer) :
    (∀ found next, tracer.Searches found next ↔ tracer.nextBoundary = (found, next)) ∧
      (tracer.nextBoundary.1 = true → tracer.key < tracer.nextBoundary.2.key) ∧
      (tracer.nextBoundary.1 = false → tracer.key ≤ tracer.nextBoundary.2.key) ∧
      ∀ count, tracer.Sees count → count ≤ 2 * tracer.mask.width * tracer.mask.height := by
  have hprogress := (searches_iff.2 (Prod.eta tracer.nextBoundary).symm).key_add_le
  refine ⟨fun _ _ ↦ searches_iff, fun h ↦ ?_, fun h ↦ ?_, fun count hcount ↦ ?_⟩
  · rw [h] at hprogress
    exact Int.lt_of_add_one_le hprogress
  · rwa [h, Bool.toNat_false, Nat.cast_zero, add_zero] at hprogress
  · rw [Nat.mul_assoc]
    exact hcount.le_sub.trans (Nat.sub_le ..)

/-- The first boundary is found and scanned. -/
theorem search_progress_target :
    let tracer := new .target .null .straight (.fresh Mask.target.size .main)
    let next := tracer.nextBoundary.2
    let back := ((Stack.bare next).scan .silent 1).stack.tracer
    tracer.nextBoundary = (true, next) ∧ next.Changes back ∧ back.position? = next.position? ∧
      (∀ found last, back.Searches found last ↔ back.nextBoundary = (found, last)) ∧
      tracer.key < next.key ∧ back.nextBoundary.1 = false ∧ back.key ≤ back.nextBoundary.2.key ∧
      tracer.Sees 1 ∧ 1 ≤ 2 * 5 * 5 := by
  intro tracer next back
  have hfound : tracer.nextBoundary.1 = true := by decide +kernel
  have hsearch : tracer.nextBoundary = (true, next) := Prod.fst_eq_iff.1 hfound
  have hchanges : next.Changes back := Stack.changes_scan .silent 1 (.bare next)
  have hback : back.position? = next.position? := by decide +kernel
  have hmissed : back.nextBoundary.1 = false := by decide +kernel
  have hsees : tracer.Sees 1 := .search hsearch hchanges hback (.done back)
  obtain ⟨-, hforward, -, hbound⟩ := search_progress tracer
  obtain ⟨hsearches, -, hstaying, -⟩ := search_progress back
  exact ⟨hsearch, hchanges, hback, hsearches, hforward hfound, hmissed, hstaying hmissed, hsees,
    hbound 1 hsees⟩

end Tracer

end ContourTracing
