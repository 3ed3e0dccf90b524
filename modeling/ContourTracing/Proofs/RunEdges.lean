import Mathlib.Data.List.Sort
import ContourTracing.Proofs.Coverage

/-!
# Runs and their ends

The search without a memory stops twice at every maximal run of set pixels, at the left side of
its first pixel and then at the right side of its last one. It takes the rows from top to bottom
and the runs of a row from left to right, and a run never goes on in the next row. The same sides
are found whether or not the boundaries are followed in between, since a scan ends where it began.
-/

namespace ContourTracing

/-- Consecutive pixels of one row. -/
structure Run where
  row : ℤ
  first : ℤ
  last : ℤ
deriving DecidableEq, Repr

namespace Run

/-- The left side of the first pixel and the right side of the last one. -/
def ends (run : Run) : List Position :=
  [⟨run.first, run.row, .left⟩, ⟨run.last, run.row, .right⟩]

/-- A run of an earlier row, or one that ends further left in the same row. -/
def Precedes (run other : Run) : Prop :=
  run.row < other.row ∨ run.row = other.row ∧ run.last < other.first

end Run

namespace Mask

variable {mask : Mask} {run other : Run} {runs : List Run} {s : Position} {x y : ℤ}

/-- A run of set pixels that goes on neither to the left nor to the right. -/
structure IsRun (mask : Mask) (run : Run) : Prop where
  first_le_last : run.first ≤ run.last
  isSet : ∀ x, run.first ≤ x → x ≤ run.last → mask.isSet x run.row = true
  isSet_before : mask.isSet (run.first - 1) run.row = false
  isSet_behind : mask.isSet (run.last + 1) run.row = false

/-- All maximal runs, row by row and each row from left to right. -/
structure IsRunList (mask : Mask) (runs : List Run) : Prop where
  mem_iff : ∀ run, run ∈ runs ↔ mask.IsRun run
  pairwise : runs.Pairwise Run.Precedes

/-! ## The run of a side -/

theorem isBoundary_left_iff : mask.IsBoundary ⟨x, y, .left⟩ ↔
    mask.isSet x y = true ∧ mask.isSet (x - 1) y = false := by
  simp [IsBoundary, Position.across, Side.outward, sub_eq_add_neg]

theorem isBoundary_right_iff : mask.IsBoundary ⟨x, y, .right⟩ ↔
    mask.isSet x y = true ∧ mask.isSet (x + 1) y = false := by
  simp [IsBoundary, Position.across, Side.outward]

/-- From a set pixel the row goes on to the right up to a last set pixel. -/
theorem exists_last_of_isSet (h : mask.isSet x y = true) :
    ∃ last, x ≤ last ∧ (∀ z, x ≤ z → z ≤ last → mask.isSet z y = true) ∧
      mask.isSet (last + 1) y = false := by
  have hexists : ∃ n : ℕ, mask.isSet (x + n + 1) y = false := by
    refine ⟨mask.width, isSet_of_not_contains _ fun hc ↦ ?_⟩
    have hx := (mask.contains_of_isSet h).1
    have hw := hc.2.1
    omega
  refine ⟨x + Nat.find hexists, by omega, fun z hle hlast ↦ ?_, Nat.find_spec hexists⟩
  rcases hle.eq_or_lt with rfl | hlt
  · exact h
  · have hmin := Nat.find_min hexists (m := (z - x - 1).toNat) (by omega)
    have hz : x + ((z - x - 1).toNat : ℤ) + 1 = z := by omega
    rwa [hz, Bool.not_eq_false] at hmin

/-- From a set pixel the row goes on to the left up to a first set pixel. -/
theorem exists_first_of_isSet (h : mask.isSet x y = true) :
    ∃ first, first ≤ x ∧ (∀ z, first ≤ z → z ≤ x → mask.isSet z y = true) ∧
      mask.isSet (first - 1) y = false := by
  have hexists : ∃ n : ℕ, mask.isSet (x - n - 1) y = false := by
    refine ⟨mask.width, isSet_of_not_contains _ fun hc ↦ ?_⟩
    have hx := (mask.contains_of_isSet h).2.1
    have hneg := hc.1
    omega
  refine ⟨x - Nat.find hexists, by omega, fun z hfirst hle ↦ ?_, Nat.find_spec hexists⟩
  rcases hle.eq_or_lt with rfl | hlt
  · exact h
  · have hmin := Nat.find_min hexists (m := (x - z - 1).toNat) (by omega)
    have hz : x - ((x - z - 1).toNat : ℤ) - 1 = z := by omega
    rwa [hz, Bool.not_eq_false] at hmin

theorem exists_isRun_of_left (h : mask.IsBoundary ⟨x, y, .left⟩) :
    ∃ last, mask.IsRun ⟨y, x, last⟩ := by
  obtain ⟨hset, hbefore⟩ := isBoundary_left_iff.1 h
  obtain ⟨last, hle, hall, hbehind⟩ := exists_last_of_isSet hset
  exact ⟨last, hle, hall, hbefore, hbehind⟩

theorem exists_isRun_of_right (h : mask.IsBoundary ⟨x, y, .right⟩) :
    ∃ first, mask.IsRun ⟨y, first, x⟩ := by
  obtain ⟨hset, hbehind⟩ := isBoundary_right_iff.1 h
  obtain ⟨first, hle, hall, hbefore⟩ := exists_first_of_isSet hset
  exact ⟨first, hle, hall, hbefore, hbehind⟩

namespace IsRun

theorem isBoundary_left (h : mask.IsRun run) : mask.IsBoundary ⟨run.first, run.row, .left⟩ :=
  isBoundary_left_iff.2 ⟨h.isSet run.first le_rfl h.first_le_last, h.isSet_before⟩

theorem isBoundary_right (h : mask.IsRun run) : mask.IsBoundary ⟨run.last, run.row, .right⟩ :=
  isBoundary_right_iff.2 ⟨h.isSet run.last h.first_le_last le_rfl, h.isSet_behind⟩

/-- Between two runs of a row there is an unset pixel. -/
theorem last_lt_first (h : mask.IsRun run) (h' : mask.IsRun other) (hrow : run.row = other.row)
    (hlt : run.first < other.first) : run.last < other.first := by
  by_contra hover
  have hset := h.isSet (other.first - 1) (by omega) (by omega)
  rw [hrow, h'.isSet_before] at hset
  cases hset

theorem last_le_last (h : mask.IsRun run) (h' : mask.IsRun other) (hrow : run.row = other.row)
    (hfirst : run.first = other.first) : other.last ≤ run.last := by
  by_contra hlong
  have hle := h.first_le_last
  have hset := h'.isSet (run.last + 1) (by omega) (by omega)
  rw [← hrow, h.isSet_behind] at hset
  cases hset

/-- A run is determined by where it begins. -/
theorem eq_of_first_eq (h : mask.IsRun run) (h' : mask.IsRun other) (hrow : run.row = other.row)
    (hfirst : run.first = other.first) : run = other := by
  have hlast : run.last = other.last :=
    le_antisymm (h'.last_le_last h hrow.symm hfirst.symm) (h.last_le_last h' hrow hfirst)
  cases run
  cases other
  simp_all

end IsRun

/-! ## Run edges in raster order -/

/-- The run edges in the order of their slots. -/
def runEdges (mask : Mask) : List Position :=
  ((List.range (2 * mask.size)).filter mask.isRunEdge).map mask.atSlot

theorem mem_runEdges : s ∈ mask.runEdges ↔ mask.IsBoundary s ∧ s.side.isVertical = true := by
  simp only [runEdges, List.mem_map, List.mem_filter, List.mem_range]
  constructor
  · rintro ⟨n, ⟨hn, hedge⟩, rfl⟩
    exact ⟨(isRunEdge_iff hn).1 hedge, isVertical_atSlot n⟩
  · rintro ⟨hs, hv⟩
    have hslot := mask.atSlot_slot (contains_of_isBoundary hs) hv
    have hn := slot_lt_of_isBoundary hs
    refine ⟨mask.slot s, ⟨hn, (isRunEdge_iff hn).2 ?_⟩, hslot⟩
    rwa [hslot]

theorem pairwise_map_atSlot (mask : Mask) (hit : ℕ → Bool) (n : ℕ) :
    (((List.range n).filter hit).map mask.atSlot).Pairwise
      fun s t ↦ mask.slot s < mask.slot t := by
  rw [List.pairwise_map]
  apply List.Pairwise.imp _ (List.pairwise_lt_range.filter _)
  intro n m hlt
  rwa [slot_atSlot, slot_atSlot]

theorem pairwise_runEdges (mask : Mask) :
    mask.runEdges.Pairwise fun s t ↦ mask.slot s < mask.slot t :=
  mask.pairwise_map_atSlot mask.isRunEdge (2 * mask.size)

/-- Sides in the order of their slots are determined by which sides they are. -/
theorem eq_of_pairwise_slot {sides sides' : List Position}
    (h : sides.Pairwise fun s t ↦ mask.slot s < mask.slot t)
    (h' : sides'.Pairwise fun s t ↦ mask.slot s < mask.slot t)
    (hmem : ∀ s, s ∈ sides ↔ s ∈ sides') : sides = sides' := by
  have hirrefl : Std.Irrefl fun s t ↦ mask.slot s < mask.slot t := ⟨fun s ↦ lt_irrefl _⟩
  have hantisymm : Std.Antisymm fun s t ↦ mask.slot s < mask.slot t :=
    ⟨fun _ _ hlt hgt ↦ absurd hlt hgt.not_gt⟩
  exact h.eq_of_mem_iff h' fun s ↦ hmem s

/-- The runs of the left sides among the run edges, in their order. -/
theorem exists_isRunList (mask : Mask) : ∃ runs, mask.IsRunList runs := by
  let lefts := mask.runEdges.filter (·.side = .left)
  have hlefts (s : Position) : s ∈ lefts ↔ mask.IsBoundary s ∧ s.side = .left := by
    simp only [lefts, List.mem_filter, mem_runEdges, decide_eq_true_eq]
    constructor
    · exact fun h ↦ ⟨h.1.1, h.2⟩
    · exact fun h ↦ ⟨⟨h.1, by rw [h.2]; rfl⟩, h.2⟩
  have hrun (s : Position) : ∃ last, s ∈ lefts → mask.IsRun ⟨s.y, s.x, last⟩ := by
    by_cases hs : s ∈ lefts
    · obtain ⟨x, y, side⟩ := s
      obtain ⟨hb, rfl⟩ := (hlefts _).1 hs
      obtain ⟨last, h⟩ := exists_isRun_of_left hb
      exact ⟨last, fun _ ↦ h⟩
    · exact ⟨0, fun h ↦ absurd h hs⟩
  choose last hlast using hrun
  refine ⟨lefts.map fun s ↦ ⟨s.y, s.x, last s⟩, fun run ↦ ?_, ?_⟩
  · rw [List.mem_map]
    constructor
    · rintro ⟨s, hs, rfl⟩
      exact hlast s hs
    · intro h
      have hs := (hlefts ⟨run.first, run.row, .left⟩).2 ⟨h.isBoundary_left, rfl⟩
      exact ⟨_, hs, (hlast _ hs).eq_of_first_eq h rfl rfl⟩
  · rw [List.pairwise_map]
    apply List.Pairwise.imp_of_mem _ (mask.pairwise_runEdges.filter _)
    intro s t hs ht hlt
    obtain ⟨hsb, hside⟩ := (hlefts s).1 hs
    obtain ⟨htb, hside'⟩ := (hlefts t).1 ht
    rw [slot_lt_iff (contains_of_isBoundary hsb) (contains_of_isBoundary htb),
      Position.edge_left hside, Position.edge_left hside'] at hlt
    apply hlt.imp_right
    intro h
    exact ⟨h.1, (hlast s hs).last_lt_first (hlast t ht) h.1 (by simp only; omega)⟩

theorem mem_flatMap_ends (h : mask.IsRunList runs) :
    s ∈ runs.flatMap Run.ends ↔ mask.IsBoundary s ∧ s.side.isVertical = true := by
  simp only [List.mem_flatMap, h.mem_iff, Run.ends, List.mem_cons, List.not_mem_nil, or_false]
  constructor
  · rintro ⟨run, hrun, rfl | rfl⟩
    · exact ⟨hrun.isBoundary_left, rfl⟩
    · exact ⟨hrun.isBoundary_right, rfl⟩
  · rintro ⟨hs, hv⟩
    obtain ⟨x, y, side⟩ := s
    rcases Position.side_eq_of_isVertical hv with hside | hside
    · obtain rfl : side = .left := hside
      obtain ⟨last, hrun⟩ := exists_isRun_of_left hs
      exact ⟨_, hrun, .inl rfl⟩
    · obtain rfl : side = .right := hside
      obtain ⟨first, hrun⟩ := exists_isRun_of_right hs
      exact ⟨_, hrun, .inr rfl⟩

theorem pairwise_flatMap_ends (h : mask.IsRunList runs) :
    (runs.flatMap Run.ends).Pairwise fun s t ↦ mask.slot s < mask.slot t := by
  rw [List.pairwise_flatMap]
  constructor
  · intro run hrun
    have hends := (h.mem_iff run).1 hrun
    have hle := hends.first_le_last
    have hlt : mask.slot ⟨run.first, run.row, .left⟩ < mask.slot ⟨run.last, run.row, .right⟩ := by
      rw [slot_lt_iff (contains_of_isBoundary hends.isBoundary_left)
        (contains_of_isBoundary hends.isBoundary_right), Position.edge_left rfl,
        Position.edge_right rfl]
      exact .inr ⟨rfl, by simp only; omega⟩
    simpa [Run.ends] using hlt
  · apply List.Pairwise.imp_of_mem _ h.pairwise
    intro run other hrun hother hprecedes s hs t ht
    have hends := (h.mem_iff run).1 hrun
    have hends' := (h.mem_iff other).1 hother
    have hle := hends.first_le_last
    have hle' := hends'.first_le_last
    have hsb := ((mem_flatMap_ends h).1 (List.mem_flatMap.2 ⟨run, hrun, hs⟩)).1
    have htb := ((mem_flatMap_ends h).1 (List.mem_flatMap.2 ⟨other, hother, ht⟩)).1
    rw [slot_lt_iff (contains_of_isBoundary hsb) (contains_of_isBoundary htb)]
    simp only [Run.ends, List.mem_cons, List.not_mem_nil, or_false] at hs ht
    unfold Run.Precedes at hprecedes
    rcases hs with rfl | rfl <;> rcases ht with rfl | rfl <;>
      simp only [Position.edge, reduceCtorEq, if_true, if_false] <;> omega

/-- The run edges are the ends of the runs, run by run. -/
theorem IsRunList.flatMap_ends (h : mask.IsRunList runs) :
    runs.flatMap Run.ends = mask.runEdges := by
  apply eq_of_pairwise_slot (pairwise_flatMap_ends h) mask.pairwise_runEdges
  intro s
  rw [mem_flatMap_ends h, mem_runEdges]

end Mask

/-! ## The search of a tracer -/

theorem Memory.foldl_record_nothing (mask : Mask) (sides : List Position) :
    sides.foldl (fun memory s ↦ memory.record mask s) Memory.nothing = .nothing := by
  induction sides with
  | nil => rfl
  | cons s sides ih => exact ih

namespace Tracer

/-- The search alone, again and again until it finds nothing: the sides on which it has put the
tracer, and the tracer at the end. -/
inductive Finds : Tracer → List Position → Tracer → Prop
  | stop {tracer last : Tracer} : tracer.nextBoundary = (false, last) → Finds tracer [] last
  | find {tracer found last : Tracer} {s : Position} {sides : List Position} :
    tracer.nextBoundary = (true, found) → found.placement = some (.initial s) →
      Finds found sides last → Finds tracer (s :: sides) last

variable {mask : Mask} {connectivity : Connectivity} {tracer : Tracer} {n m : ℕ}

/-- A tracer without a memory whose next search begins at a slot. -/
structure HasPassed (mask : Mask) (connectivity : Connectivity) (n : ℕ) (tracer : Tracer) :
    Prop where
  mask_eq : tracer.mask = mask
  connectivity_eq : tracer.connectivity = connectivity
  memory_eq : tracer.memory = .nothing
  slotAfter_eq : mask.slotAfter tracer.position? = n

theorem IsFreshForSingle.hasPassed (h : tracer.IsFreshForSingle) :
    HasPassed tracer.mask tracer.connectivity 0 tracer := by
  refine ⟨rfl, rfl, h.memory_eq, ?_⟩
  rw [position?, h.placement_eq]
  rfl

namespace HasPassed

theorem nextRunEdge_eq (h : HasPassed mask connectivity n tracer) :
    tracer.mask.nextRunEdge tracer.position? =
      (Search.firstOf mask.isRunEdge n (2 * mask.size - n)).map mask.atSlot := by
  rw [h.mask_eq, Mask.nextRunEdge_eq, h.slotAfter_eq]

theorem nextBoundary_fst (h : HasPassed mask connectivity n tracer)
    (hnone : Search.firstOf mask.isRunEdge n (2 * mask.size - n) = none) :
    tracer.nextBoundary.1 = false := by
  simp only [nextBoundary, h.memory_eq, nextSingle, h.nextRunEdge_eq, hnone, Option.map_none]

/-- The search stops at the next run edge, and a scan from there does not matter for the one
after it. -/
theorem exists_found (h : HasPassed mask connectivity n tracer)
    (hsome : Search.firstOf mask.isRunEdge n (2 * mask.size - n) = some m) :
    ∃ found, tracer.nextBoundary = (true, found) ∧
      found.IsFoundAt mask connectivity (fun _ ↦ 0) (mask.atSlot m) ∧
      HasPassed mask connectivity (m + 1) found ∧
      HasPassed mask connectivity (m + 1) (found.scanned (mask.atSlot m)) := by
  obtain ⟨hle, hlt, hedge, -⟩ := Search.firstOf_eq_some_iff.1 hsome
  have hboundary : mask.IsBoundary (mask.atSlot m) := (Mask.isRunEdge_iff (by omega)).1 hedge
  have hslot : mask.slotAfter (some (mask.atSlot m)) = m + 1 := by
    rw [Mask.slotAfter, Mask.slot_atSlot]
  have hfound : tracer.nextBoundary = (true, tracer.place (mask.atSlot m)) := by
    simp only [nextBoundary, h.memory_eq, nextSingle, h.nextRunEdge_eq, hsome, Option.map_some]
    rfl
  obtain ⟨rfl, rfl, hmemory, -⟩ := h
  have hmemory' : (tracer.place (tracer.mask.atSlot m)).memory = .nothing := hmemory
  refine ⟨_, hfound, ⟨rfl, rfl, hboundary, rfl, rfl, ?_⟩, ⟨rfl, rfl, hmemory, hslot⟩,
    ⟨mask_scanned .., connectivity_scanned .., ?_, ?_⟩⟩
  · rw [hmemory']
    rfl
  · rw [memory_scanned, hmemory', Memory.foldl_record_nothing]
  · rw [position?_scanned (position?_place ..), hslot]

/-- Without walks in between, the search stops at all run edges that are left. -/
theorem exists_finds (h : HasPassed mask connectivity n tracer) :
    ∃ last, tracer.Finds
      (((List.range' n (2 * mask.size - n)).filter mask.isRunEdge).map mask.atSlot) last := by
  -- on the number of slots that are left
  induction hcount : 2 * mask.size - n using Nat.strong_induction_on generalizing n tracer with
  | h count ih =>
    subst hcount
    cases hfirst : Search.firstOf mask.isRunEdge n (2 * mask.size - n) with
    | none =>
      rw [filter_range'_of_firstOf_eq_none hfirst]
      exact ⟨_, .stop (Prod.ext (h.nextBoundary_fst hfirst) rfl)⟩
    | some m =>
      obtain ⟨hle, hlt, -⟩ := Search.firstOf_eq_some_iff.1 hfirst
      obtain ⟨found, hnext, hat, hpassed, -⟩ := h.exists_found hfirst
      obtain ⟨last, hrest⟩ := ih _ (by omega) hpassed rfl
      have hrange : n + (2 * mask.size - n) - (m + 1) = 2 * mask.size - (m + 1) := by omega
      rw [filter_range'_of_firstOf_eq_some hfirst, hrange]
      exact ⟨last, .find hnext hat.placement_eq hrest⟩

end HasPassed

/-- The loop makes one tour from every run edge, in the order of their slots. -/
theorem IsFreshForSingle.exists_loop (h : tracer.IsFreshForSingle) :
    ∃ last, tracer.Loop
      (tracer.mask.runEdges.map (tracer.mask.tour tracer.connectivity fun _ ↦ 0)) last := by
  obtain ⟨last, hloop⟩ := exists_loop_of_invariant
    (fun hinv hnone ↦ hinv.nextBoundary_fst hnone)
    (fun hinv hsome ↦ by
      obtain ⟨found, hnext, hat, -, hpassed⟩ := hinv.exists_found hsome
      exact ⟨found, hnext, hat, hpassed⟩) h.hasPassed
  refine ⟨last, ?_⟩
  rw [Mask.runEdges, List.map_map, List.range_eq_range']
  exact hloop

/-- The search without a memory finds the ends of the runs, run by run, and then nothing, whether
or not the boundaries that it finds are scanned. -/
theorem exists_run_ends_found (h : tracer.IsFreshForSingle) :
    ∃ runs, tracer.mask.IsRunList runs ∧
      (∃ last, tracer.Finds (runs.flatMap Run.ends) last) ∧
      ∃ tours last, tracer.Loop tours last ∧ tours.map (·.start) = runs.flatMap Run.ends := by
  obtain ⟨runs, hruns⟩ := tracer.mask.exists_isRunList
  obtain ⟨last, hfinds⟩ := h.hasPassed.exists_finds
  obtain ⟨last', hloop⟩ := h.exists_loop
  refine ⟨runs, hruns, ⟨last, ?_⟩, _, last', hloop, ?_⟩
  · rw [hruns.flatMap_ends, Mask.runEdges, List.range_eq_range']
    exact hfinds
  · rw [hruns.flatMap_ends, List.map_map]
    exact List.map_id _

theorem exists_run_ends_found_target :
    let tracer := new .target .null .straight (.fresh Mask.target.size .single)
    tracer.IsFreshForSingle ∧ ∃ runs, Mask.target.IsRunList runs ∧
      (∃ last, tracer.Finds (runs.flatMap Run.ends) last) ∧
      ∃ tours last, tracer.Loop tours last ∧ tours.map (·.start) = runs.flatMap Run.ends :=
  ⟨isFreshForSingle_new .target .null .straight,
    exists_run_ends_found (isFreshForSingle_new .target .null .straight)⟩

end Tracer

end ContourTracing
