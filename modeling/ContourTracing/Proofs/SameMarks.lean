import ContourTracing.Proofs.AllBoundaries
import ContourTracing.Proofs.Coverage
import ContourTracing.Proofs.SearchFinds

/-!
# Buffers with the same marks

The search for all boundaries stops at the first run edge that is marked in neither buffer. Which of
the two buffers holds a mark decides on the nesting level only, and that is never asked for on the
way. So tracers whose buffers hold the same marks, taken together, find the same boundaries and
follow them in the same way, be it that each of them has two buffers or that one array serves for
both.
-/

namespace ContourTracing

/-! ## Marks in either buffer -/

theorem Cells.isMarked_putBracket_iff {cells : Cells} {mask : Mask} {s : Position} {index : ℕ} :
    (cells.putBracket mask s).isMarked index = true ↔
      (mask.bracketCell? s = some index ∧ index < cells.size) ∨ cells.isMarked index = true := by
  rw [putBracket]
  cases mask.bracketCell? s with
  | none => simp
  | some cell =>
    simp only [isMarked_mark, Bool.or_eq_true, Bool.and_eq_true, decide_eq_true_eq,
      Option.some.injEq]
    apply or_congr_left
    apply and_congr_right
    intro heq
    rw [heq]

namespace BracketPair

/-- The cell is marked in one of the two buffers. -/
def isMarked (pair : BracketPair) (index : ℕ) : Bool :=
  (pair.cells .external).isMarked index || (pair.cells .internal).isMarked index

/-- All buffers are of one size, and the same cells are marked in either pair. -/
structure HasSameMarks (pair other : BracketPair) : Prop where
  size_eq : ∀ kind kind', (pair.cells kind).size = (other.cells kind').size
  isMarked_eq : ∀ index, pair.isMarked index = other.isMarked index

variable {pair other : BracketPair} {mask : Mask}

theorem size_cells_putBracket (pair : BracketPair) (mask : Mask) (kind kind' : BoundaryKind)
    (s : Position) :
    ((pair.putBracket mask kind s).cells kind').size = (pair.cells kind').size := by
  obtain ⟨first, second⟩ := pair
  cases kind <;> cases kind' <;> cases second <;> first
    | rfl
    | exact Cells.size_putBracket ..

/-- A bracket marks its cell whatever its kind. -/
theorem isMarked_putBracket_iff {kind : BoundaryKind} {s : Position} {index : ℕ} :
    (pair.putBracket mask kind s).isMarked index = true ↔
      (mask.bracketCell? s = some index ∧ index < (pair.cells kind).size) ∨
        pair.isMarked index = true := by
  obtain ⟨first, second⟩ := pair
  cases kind <;> cases second <;>
    simp only [isMarked, putBracket, cells, Bool.or_eq_true, Cells.isMarked_putBracket_iff,
      Option.getD_none, Option.getD_some] <;> tauto

namespace HasSameMarks

theorem hasBracket_eq (h : pair.HasSameMarks other) (mask : Mask) (s : Position) :
    ((pair.cells .external).hasBracket mask s || (pair.cells .internal).hasBracket mask s) =
      ((other.cells .external).hasBracket mask s || (other.cells .internal).hasBracket mask s) := by
  simp only [Cells.hasBracket]
  cases mask.bracketCell? s with
  | none => rfl
  | some index => exact h.isMarked_eq index

/-- Brackets of the same side keep the marks the same, even if they are of different kinds. -/
theorem putBracket (h : pair.HasSameMarks other) (mask : Mask) (kind kind' : BoundaryKind)
    (s : Position) :
    (pair.putBracket mask kind s).HasSameMarks (other.putBracket mask kind' s) where
  size_eq i j := by
    rw [size_cells_putBracket, size_cells_putBracket]
    exact h.size_eq i j
  isMarked_eq index := by
    rw [Bool.eq_iff_iff, isMarked_putBracket_iff, isMarked_putBracket_iff, h.size_eq kind kind',
      h.isMarked_eq index]

/-- Sweeps from the same edge come to the same edges; only the nesting levels may differ. -/
theorem sweep (h : pair.HasSameMarks other) (mask : Mask) (fuel : ℕ) (start edge : Option Position)
    (level level' : ℤ) :
    (pair.sweep mask fuel ⟨start, edge, level⟩).1 =
        (other.sweep mask fuel ⟨start, edge, level'⟩).1 ∧
      (pair.sweep mask fuel ⟨start, edge, level⟩).2.edge =
        (other.sweep mask fuel ⟨start, edge, level'⟩).2.edge := by
  induction fuel generalizing edge level level' with
  | zero => exact ⟨rfl, rfl⟩
  | succ fuel ih =>
    rw [BracketPair.sweep, BracketPair.sweep]
    cases mask.nextRunEdge (edge.or start) with
    | none => exact ⟨rfl, rfl⟩
    | some s =>
      dsimp only
      rw [h.hasBracket_eq mask s]
      -- the end of a row, an edge with a mark, or the edge at which both sweeps stop
      split
      · exact ih (some s) 0 0
      · split
        · exact ih (some s) _ _
        · exact ⟨rfl, rfl⟩

end HasSameMarks

end BracketPair

/-! ## Tracers in step -/

namespace Tracer

/-- Two tracers for all boundaries that stand at the same place of the same mask, with the same
counts and the same marks. -/
structure HasSameMarks (tracer other : Tracer) : Prop where
  mask_eq : tracer.mask = other.mask
  connectivity_eq : tracer.connectivity = other.connectivity
  placement_eq : tracer.placement = other.placement
  tally_eq : tracer.tally = other.tally
  memory_eq : ∃ pair active level pair' active' level',
    tracer.memory = .brackets pair active level ∧ other.memory = .brackets pair' active' level' ∧
      pair.HasSameMarks pair'

namespace HasSameMarks

variable {tracer other : Tracer} {e : Position}

theorem arrive (h : tracer.HasSameMarks other) (arrival : Arrival) :
    (tracer.arrive arrival).HasSameMarks (other.arrive arrival) := by
  obtain ⟨hmask, hconnectivity, hplacement, htally, pair, active, level, pair', active', level',
    hmemory, hmemory', hmarks⟩ := h
  refine ⟨hmask, hconnectivity, ?_, ?_, _, active, level, _, active', level', ?_, ?_,
    hmarks.putBracket tracer.mask active active' arrival.position⟩
  · simp only [Tracer.arrive, hplacement]
  · simp only [Tracer.arrive, htally]
  · simp only [Tracer.arrive, hmemory, Memory.record]
  · simp only [Tracer.arrive, hmemory', Memory.record, hmask]

theorem foldl_arrive (h : tracer.HasSameMarks other) (arrivals : List Arrival) :
    (arrivals.foldl Tracer.arrive tracer).HasSameMarks (arrivals.foldl Tracer.arrive other) := by
  induction arrivals generalizing tracer other with
  | nil => exact h
  | cons arrival arrivals ih => exact ih (h.arrive arrival)

theorem scanned (h : tracer.HasSameMarks other) (e : Position) :
    (tracer.scanned e).HasSameMarks (other.scanned e) := by
  have harrivals := h.foldl_arrive
    (tracer.mask.arrivals tracer.connectivity (tracer.mask.period tracer.connectivity e) e)
  rw [Tracer.scanned, Tracer.scanned, ← h.mask_eq, ← h.connectivity_eq]
  exact harrivals

theorem position?_eq (h : tracer.HasSameMarks other) : tracer.position? = other.position? := by
  rw [position?, position?, h.placement_eq]

/-- The searches end at the same place, and both find something there or neither does. -/
theorem nextBoundary (h : tracer.HasSameMarks other) :
    tracer.nextBoundary.1 = other.nextBoundary.1 ∧
      tracer.nextBoundary.2.HasSameMarks other.nextBoundary.2 := by
  have hposition := h.position?_eq
  obtain ⟨hmask, hconnectivity, hplacement, -, pair, active, level, pair', active', level',
    hmemory, hmemory', hmarks⟩ := h
  obtain ⟨hfound, hedge⟩ := hmarks.sweep other.mask (2 * other.mask.size + 1)
    other.position? none level level'
  simp only [Tracer.nextBoundary, hmemory, hmemory', nextUntraced, hmask, hposition, hedge]
  split
  · exact ⟨hfound, ⟨hmask, hconnectivity, rfl, rfl, pair, _, _, pair', _, _, rfl, rfl, hmarks⟩⟩
  · exact ⟨hfound, ⟨rfl, hconnectivity, hplacement, rfl, pair, _, _, pair', _, _, rfl, rfl,
      hmarks⟩⟩

/-- One round: the same boundary is found and followed. -/
theorem round (h : tracer.HasSameMarks other) {found next : Tracer} {tour : Tour}
    (hfound : tracer.nextBoundary = (true, found)) (htour : found.tour? = some (tour, next)) :
    ∃ found' next' tour', other.nextBoundary = (true, found') ∧
      found'.tour? = some (tour', next') ∧ tour'.toRound = tour.toRound ∧
        next.HasSameMarks next' := by
  have hmode : tracer.memory.mode ≠ .main := by
    obtain ⟨pair, active, level, -, -, -, hmemory, -⟩ := h.memory_eq
    rw [hmemory]
    nofun
  -- a search puts the tracer on a boundary side, so that both scans end
  obtain ⟨s, memory, hboundary, heq⟩ := exists_place_of_found hfound
  have hplacement : found.placement = some (.initial s) := by rw [heq]; rfl
  have hs : found.mask.IsBoundary s := by
    rw [heq]
    exact hboundary hmode
  obtain ⟨hflag, hsame⟩ := h.nextBoundary
  simp only [hfound] at hflag hsame
  have hs' : other.nextBoundary.2.mask.IsBoundary s := hsame.mask_eq ▸ hs
  have hscanned := hsame.scanned s
  rw [tour?_eq hs hplacement] at htour
  cases htour
  refine ⟨other.nextBoundary.2, other.nextBoundary.2.scanned s, _, Prod.ext hflag.symm rfl,
    tour?_eq hs' (hsame.placement_eq ▸ hplacement), ?_, hscanned⟩
  simp only [hsame.mask_eq, hsame.connectivity_eq, hscanned.tally_eq]

/-- The loops make the same rounds. -/
theorem loop (h : tracer.HasSameMarks other) {last : Tracer} {tours : List Tour}
    (hloop : tracer.Loop tours last) :
    ∃ tours' last', other.Loop tours' last' ∧ tours'.map (·.toRound) = tours.map (·.toRound) := by
  induction hloop generalizing other with
  | stop hstop =>
    have hflag := h.nextBoundary.1
    rw [hstop] at hflag
    exact ⟨[], other.nextBoundary.2, .stop (Prod.ext hflag.symm rfl), rfl⟩
  | round hfound htour _ ih =>
    obtain ⟨found', next', tour', hfound', htour', hround, hnext⟩ := h.round hfound htour
    obtain ⟨tours', last', hloop', hrounds⟩ := ih hnext
    refine ⟨tour' :: tours', last', .round hfound' htour' hloop', ?_⟩
    rw [List.map_cons, List.map_cons, hround, hrounds]

end HasSameMarks

end Tracer

namespace BracketPair

theorem hasSameMarks_of_isBlankFor {mask : Mask} {pair other : BracketPair}
    (h : ∀ kind, (pair.cells kind).IsBlankFor mask)
    (hother : ∀ kind, (other.cells kind).IsBlankFor mask) : pair.HasSameMarks other where
  size_eq kind kind' := (h kind).1.trans (hother kind').1.symm
  isMarked_eq index := by
    simp only [isMarked, (h _).2 index, (hother _).2 index]

end BracketPair

/-- Blank buffers have the same marks, whether they are two or one. -/
theorem Tracer.IsFreshForAll.hasSameMarks {tracer : Tracer} (h : tracer.IsFreshForAll)
    {external internal : Cells} (hexternal : external.IsBlankFor tracer.mask)
    (hinternal : internal.IsBlankFor tracer.mask) (isShared : Bool) :
    tracer.HasSameMarks { tracer with
      memory := .brackets ⟨external, if isShared then none else some internal⟩ .external 0 } := by
  obtain ⟨first, second, hmemory, hfirst, hsecond⟩ := h.memory_eq
  refine ⟨rfl, rfl, rfl, rfl, _, _, _, _, _, _, hmemory, rfl, ?_⟩
  apply BracketPair.hasSameMarks_of_isBlankFor
  · rintro (_ | _)
    · exact hfirst
    · exact hsecond
  · rintro (_ | _)
    · exact hexternal
    · cases isShared
      · exact hinternal
      · exact hexternal

/-! ## Buffers from outside -/

/-- An array of zeros, of whatever kind, that is taken as a buffer for a mask. -/
def Buffer.IsZeroFor (buffer : Buffer) (mask : Mask) : Prop :=
  buffer.IsZero ∧ ∀ name, ∃ cells, buffer.cellsFor name mask = .ok cells

/-- Zeros of any kind serve, in the shape of the mask. -/
theorem Buffer.isZeroFor_blank (mask : Mask) (kind : ElementKind) :
    IsZeroFor (.array ⟨[mask.height, mask.width], kind, true, Cells.blank mask.size⟩) mask := by
  refine ⟨⟨?_, fun index ↦ Cells.isMarked_blank mask.size index⟩,
    fun name ↦ ⟨Cells.blank mask.size, ?_⟩⟩
  · simp [Cells.blank, Shape.size, Mask.size, Nat.mul_comm]
  · simp [cellsFor]

/-- Blank cells come from an array of zeros and from no array. -/
theorem Buffer.exists_cells_of_choice {choice : Option Buffer} {mask : Mask} (name : String)
    (hchoice : ∀ buffer ∈ choice, buffer.IsZeroFor mask) : ∃ cells : Cells,
      cells.IsBlankFor mask ∧ (match choice with
        | some buffer => buffer.cellsFor name mask
        | none => .ok (Cells.blank mask.size)) = .ok cells := by
  cases choice with
  | none => exact ⟨_, Cells.isBlankFor_blank mask, rfl⟩
  | some buffer =>
    obtain ⟨hzero, hfits⟩ := hchoice buffer rfl
    obtain ⟨cells, heq⟩ := hfits name
    exact ⟨cells, hzero.isBlankFor heq, heq⟩

/-- The memory that is made of them is blank, also with one array for both. -/
theorem Memory.exists_ofBuffers {mask : Mask} {first second : Option Buffer}
    (hfirst : ∀ buffer ∈ first, buffer.IsZeroFor mask)
    (hsecond : ∀ buffer ∈ second, buffer.IsZeroFor mask) (isShared : Bool) :
    ∃ external internal, external.IsBlankFor mask ∧ internal.IsBlankFor mask ∧
      ofBuffers mask (.pair first second isShared) =
        .ok (.brackets ⟨external, if isShared then none else some internal⟩ .external 0) := by
  obtain ⟨external, hexternal, heq⟩ := Buffer.exists_cells_of_choice "buffer1" hfirst
  obtain ⟨internal, hinternal, heq'⟩ := Buffer.exists_cells_of_choice "buffer2" hsecond
  have hbind {α β : Type} {x : Except Fault α} {a : α} (f : α → Except Fault β) (hx : x = .ok a) :
      x.bind f = f a := by
    rw [hx]
    rfl
  exact ⟨external, internal, hexternal, hinternal, (hbind _ heq).trans (hbind _ heq')⟩

namespace Tracer

variable {source : MatrixSource} {connectivity : Value} {tracer : Tracer}

/-- With other buffers that fit, a tracer is made that differs in its memory only. -/
theorem make_of_make {choice other : BufferChoice} {memory : Memory}
    (h : Tracer.make source connectivity choice = .ok tracer)
    (hmemory : Memory.ofBuffers tracer.mask other = .ok memory) :
    Tracer.make source connectivity other = .ok { tracer with memory := memory } := by
  simp only [Tracer.make, bind, Except.bind] at h ⊢
  split at h
  · split at h
    · cases h
    · split at h
      · cases h
      · split at h
        · cases h
        · cases h
          simp only [new] at hmemory
          simp only [hmemory]
          rfl
  · cases h

/-- The loop that finds and scans one boundary after the other ends after these rounds: each has its
start, its steps with the positions on which they arrive, and the counts and areas at its end. -/
def MakesRounds (tracer : Tracer) (rounds : List Round) : Prop :=
  ∃ tours last, tracer.Loop tours last ∧ tours.map (·.toRound) = rounds

/-- A tracer for all boundaries makes the same rounds with buffers of its own, with arrays of zeros
of any kind for one or both of them, and with one array of zeros for both. -/
theorem exists_makesRounds_of_isZeroFor
    (h : Tracer.make source connectivity (.pair none none false) = .ok tracer) :
    ∃ rounds, tracer.MakesRounds rounds ∧ ∀ first second isShared,
      (∀ buffer ∈ first, buffer.IsZeroFor tracer.mask) →
      (∀ buffer ∈ second, buffer.IsZeroFor tracer.mask) →
        ∃ other, Tracer.make source connectivity (.pair first second isShared) = .ok other ∧
          other.MakesRounds rounds := by
  have hfresh : tracer.IsFreshForAll := isFreshForAll_of_make h nofun nofun
  obtain ⟨last, hloop⟩ := hfresh.exists_loop
  refine ⟨_, ⟨_, last, hloop, rfl⟩, fun first second isShared hfirst hsecond ↦ ?_⟩
  obtain ⟨external, internal, hexternal, hinternal, hmemory⟩ :=
    Memory.exists_ofBuffers hfirst hsecond isShared
  obtain ⟨tours', last', hloop', hrounds⟩ :=
    (hfresh.hasSameMarks hexternal hinternal isShared).loop hloop
  exact ⟨_, make_of_make h hmemory, tours', last', hloop', hrounds⟩

/-- Bytes and reals in two arrays, and words in one. -/
theorem exists_makesRounds_of_isZeroFor_target :
    let source := MatrixSource.dense ⟨[5, 5], Mask.target.bits, rfl⟩
    let connectivity := Value.member (.connectivity .straight)
    let own := new .target (.member (.policy .background)) .straight (.fresh Mask.target.size .all)
    let zeros kind := Buffer.array ⟨[5, 5], kind, true, Cells.blank 25⟩
    Tracer.make source connectivity (.pair none none false) = .ok own ∧
      (∀ kind, (zeros kind).IsZeroFor own.mask) ∧
        ∃ rounds, own.MakesRounds rounds ∧
          (∃ other, Tracer.make source connectivity
              (.pair (some (zeros .byte)) (some (zeros .real)) false) = .ok other ∧
            other.MakesRounds rounds) ∧
          ∃ other, Tracer.make source connectivity
              (.pair (some (zeros .word)) (some (zeros .word)) true) = .ok other ∧
            other.MakesRounds rounds := by
  intro source connectivity own zeros
  have hmake : Tracer.make source connectivity (.pair none none false) = .ok own := rfl
  have hzeros (kind : ElementKind) : (zeros kind).IsZeroFor own.mask :=
    Buffer.isZeroFor_blank .target kind
  have hsome (kind : ElementKind) (buffer : Buffer) (hbuffer : buffer ∈ some (zeros kind)) :
      buffer.IsZeroFor own.mask := by
    cases hbuffer
    exact hzeros kind
  obtain ⟨rounds, hown, hother⟩ := exists_makesRounds_of_isZeroFor hmake
  exact ⟨hmake, hzeros, rounds, hown, hother _ _ false (hsome .byte) (hsome .real),
    hother _ _ true (hsome .word) (hsome .word)⟩

end Tracer

end ContourTracing
