import ContourTracing.Proofs.Coverage
import ContourTracing.Proofs.Filling

/-!
# The search in the main mode

Between two boundaries the buffer records, from the current pixel on, the outermost circuits that
start before the current slot. A new search fills what was traced and stops at the next outermost
start. So the main mode makes the tours of the mode for all boundaries at level one, and no
others.
-/

namespace ContourTracing

theorem Memory.foldl_record_filled (mask : Mask) (cells : Cells) (sides : List Position) :
    sides.foldl (fun memory s ↦ memory.record mask s) (Memory.filled cells) =
      .filled (sides.foldl (·.putBracket mask ·) cells) := by
  induction sides generalizing cells with
  | nil => rfl
  | cons s sides ih => exact ih (cells.putBracket mask s)

namespace Mask

variable {mask : Mask} {connectivity : Connectivity} {n : ℕ} {e : Position}

/-- The first of all run edges is an outermost start. -/
theorem isNextStart_of_nextRunEdge (h : mask.nextRunEdge none = some e) :
    mask.IsNextStart connectivity (mask.LeadsToOne connectivity) 0 e := by
  obtain ⟨hb, hv, -, hleast⟩ := nextRunEdge_eq_some h
  obtain ⟨d, hd, hed⟩ := exists_isStart connectivity hb
  have hslot : mask.slot d = mask.slot e :=
    le_antisymm (hd.slot_le e hed hv) (hleast d hd.isBoundary hd.isVertical (Nat.zero_le _))
  obtain rfl : d = e := eq_of_slot_eq hd.isBoundary hb hd.isVertical hv hslot
  have hbefore : mask.depth connectivity d.before = 0 :=
    depth_before_eq_depthAfter (fun t ht ↦ by cases ht) h
  have hpast := hd.depth_past hd.self_mem hv
  refine ⟨hd, ?_, Nat.zero_le _, fun c hc _ _ ↦ ?_⟩
  · rw [hbefore, if_pos rfl] at hpast
    exact Int.natCast_inj.1 hpast
  · exact hleast c hc.isBoundary hc.isVertical (Nat.zero_le _)

theorem index_atSlot_two_mul (mask : Mask) (k : ℕ) :
    mask.index (mask.atSlot (2 * k)).x (mask.atSlot (2 * k)).y = k := by
  have hslot := mask.slot_atSlot (2 * k)
  have hside : (mask.atSlot (2 * k)).side = .left := by simp [atSlot]
  rw [slot, hside] at hslot
  simpa using hslot

theorem outerSides_succ (he : mask.IsNextStart connectivity (mask.LeadsToOne connectivity) n e) :
    mask.outerSides connectivity (mask.slot e + 1) =
      mask.outerSides connectivity n ∪ {s | s ∈ mask.circuit connectivity e} := by
  rw [outerSides, sidesBefore_succ he.isStart he.le_slot he.slot_le]
  have hone := he.holds
  simp only [hone, true_and]
  rfl

/-- The tours at level one are those from the outermost starts. -/
theorem filter_level_allTours (mask : Mask) (connectivity : Connectivity) :
    (mask.allTours connectivity).filter (·.level = 1) =
      (mask.startList connectivity (mask.LeadsToOne connectivity)).map
        (mask.tour connectivity (mask.depth connectivity ·.past)) := by
  rw [allTours, List.filter_map, filter_startList fun e _ ↦ ?_]
  rw [true_and]
  exact decide_eq_true_iff.trans Nat.cast_eq_one

end Mask

namespace Tracer

variable {mask : Mask} {connectivity : Connectivity} {tracer found : Tracer} {cells : Cells}
  {n : ℕ} {e : Position}

/-- A tracer between two boundaries: the outermost ones that start before a slot are traced. -/
structure HasTracedMain (mask : Mask) (connectivity : Connectivity) (n : ℕ) (tracer : Tracer) :
    Prop where
  mask_eq : tracer.mask = mask
  connectivity_eq : tracer.connectivity = connectivity
  memory_eq : ∃ cells, tracer.memory = .filled cells ∧
    cells.Records mask tracer.index (mask.outerSides connectivity n)
  position_cases : tracer.position? = none ∧ n = 0 ∨
    ∃ e, tracer.position? = some e ∧ mask.IsOutermost connectivity e ∧ n = mask.slot e + 1

theorem IsFreshForMain.hasTracedMain (h : tracer.IsFreshForMain) :
    HasTracedMain tracer.mask tracer.connectivity 0 tracer := by
  have hposition : tracer.position? = none := by rw [position?, h.placement_eq, Option.map_none]
  obtain ⟨cells, hmemory, hsize, hblank⟩ := h.memory_eq
  refine ⟨rfl, rfl, ⟨cells, hmemory, ?_⟩, .inl ⟨hposition, rfl⟩⟩
  rw [Mask.outerSides, Mask.sidesBefore_zero]
  exact Cells.Records.of_isMarked_eq_false hsize hblank

namespace HasTracedMain

/-- After the scan of the next outermost circuit that circuit is recorded too. -/
theorem scanned (hat : found.IsFoundAt mask connectivity (fun _ ↦ 0) e)
    (he : mask.IsNextStart connectivity (mask.LeadsToOne connectivity) n e)
    (hmemory : found.memory = .filled cells)
    (hrecords : cells.Records mask (mask.index e.x e.y) (mask.outerSides connectivity n)) :
    HasTracedMain mask connectivity (mask.slot e + 1) (found.scanned e) := by
  have hposition : (found.scanned e).position? = some e :=
    position?_scanned (by rw [position?, hat.placement_eq]; rfl)
  have hboundary (s : Position) (hs : s ∈ mask.circuit connectivity e) : mask.IsBoundary s :=
    Mask.isBoundary_of_mem_circuit he.isStart.isBoundary hs
  let recorded := (mask.circuit connectivity e).foldl (·.putBracket mask ·) cells
  refine ⟨by rw [mask_scanned, hat.mask_eq], by rw [connectivity_scanned, hat.connectivity_eq],
    ⟨recorded, ?_, ?_⟩, .inr ⟨e, hposition, ⟨he.isStart, he.holds⟩, rfl⟩⟩
  · rw [memory_scanned, hat.mask_eq, hat.connectivity_eq, hmemory, Memory.foldl_record_filled]
  · rw [index, hposition, mask_scanned, hat.mask_eq, Mask.outerSides_succ he]
    exact hrecords.foldl_putBracket hboundary

/-- Where nothing is traced yet, the search goes to the first run edge. -/
theorem nextOutermost_of_none (connectivity : Connectivity) (hposition : tracer.position? = none)
    (hrecords : cells.Records tracer.mask tracer.index ∅) :
    (∃ e, tracer.mask.IsNextStart connectivity (tracer.mask.LeadsToOne connectivity) 0 e ∧
      tracer.nextOutermost cells = (true, tracer.place e)) ∨
    (∀ d, ¬ tracer.mask.IsStart connectivity d) ∧ (tracer.nextOutermost cells).1 = false := by
  have hindex : tracer.index = 0 := by rw [index, hposition]
  unfold nextOutermost
  split
  · next hsize =>
    refine .inr ⟨fun d hd ↦ ?_, rfl⟩
    have hlt := hd.slot_lt
    omega
  · next hsize =>
    obtain ⟨p, hp, hzero⟩ := Mask.exists_index_eq (Nat.pos_of_ne_zero hsize)
    have hunmarked : ¬ cells.isMarked tracer.index = true := by
      rw [hindex, ← hzero, hrecords.isMarked_iff p hp (by omega)]
      rintro ⟨s, hs, -⟩
      exact hs
    rw [if_neg hunmarked, nextSingle, hposition]
    cases hnext : tracer.mask.nextRunEdge none with
    | none =>
      refine .inr ⟨fun d hd ↦ ?_, rfl⟩
      exact absurd (Mask.nextRunEdge_eq_none hnext hd.isBoundary hd.isVertical) (Nat.not_lt_zero _)
    | some e => exact .inl ⟨e, Mask.isNextStart_of_nextRunEdge hnext, rfl⟩

/-- From an outermost start the search fills what its circuit and others enclose. -/
theorem nextOutermost_of_isFilling (hsize : tracer.mask.size ≠ 0)
    (hmarked : cells.isMarked tracer.index = true) {p : Pixel}
    (hindex : tracer.index = tracer.mask.index p.1 p.2)
    (h : tracer.mask.IsFilling connectivity n cells p) :
    (∃ e filled, tracer.mask.IsNextStart connectivity (tracer.mask.LeadsToOne connectivity) n e ∧
      filled.Records tracer.mask (tracer.mask.index e.x e.y)
        (tracer.mask.outerSides connectivity n) ∧
      tracer.nextOutermost cells = (true, { tracer.place e with memory := .filled filled })) ∨
    (∀ d, tracer.mask.IsOutermost connectivity d → tracer.mask.slot d < n) ∧
      (tracer.nextOutermost cells).1 = false := by
  simp only [nextOutermost, if_neg hsize, if_pos hmarked]
  rw [hindex]
  rcases h.fillFrom_cases (Nat.sub_le _ _) with ⟨filled, q, hfill, hq, hrecords, hnext⟩ |
    ⟨hnone, hfill⟩
  · refine .inl ⟨_, filled, hnext, ?_, by rw [hfill]⟩
    rwa [tracer.mask.index_atSlot_two_mul]
  · refine .inr ⟨hnone, ?_⟩
    rw [hfill]

/-- The search stops at the next outermost start, or nowhere if there is none. -/
theorem nextBoundary_cases (h : HasTracedMain mask connectivity n tracer) :
    (∃ e found cells, mask.IsNextStart connectivity (mask.LeadsToOne connectivity) n e ∧
      tracer.nextBoundary = (true, found) ∧
      found.IsFoundAt mask connectivity (fun _ ↦ 0) e ∧ found.memory = .filled cells ∧
      cells.Records mask (mask.index e.x e.y) (mask.outerSides connectivity n)) ∨
    (∀ d, mask.IsOutermost connectivity d → mask.slot d < n) ∧
      tracer.nextBoundary.1 = false := by
  obtain ⟨rfl, rfl, ⟨cells, hmemory, hrecords⟩, hcases⟩ := h
  simp only [nextBoundary, hmemory]
  rcases hcases with ⟨hposition, rfl⟩ | ⟨e, hposition, he, rfl⟩
  · rw [Mask.outerSides, Mask.sidesBefore_zero] at hrecords ⊢
    rcases nextOutermost_of_none tracer.connectivity hposition hrecords with
      ⟨e, hnext, hfound⟩ | ⟨hnone, hfound⟩
    · have hat : (tracer.place e).resetCounters.IsFoundAt tracer.mask tracer.connectivity
          (fun _ ↦ 0) e :=
        ⟨rfl, rfl, hnext.isStart.isBoundary, rfl, rfl, congrArg Memory.level hmemory⟩
      rw [index, hposition] at hrecords
      exact .inl ⟨e, _, cells, hnext, by rw [hfound], hat, hmemory, hrecords.mono (Nat.zero_le _)⟩
    · exact .inr ⟨fun d hd ↦ absurd hd.isStart (hnone d), hfound⟩
  · have hindex : tracer.index = tracer.mask.index e.x e.y := by rw [index, hposition]
    rw [hindex] at hrecords
    obtain ⟨hmarked, hfilling⟩ := he.isFilling hrecords
    rw [← hindex] at hmarked
    have hsize : tracer.mask.size ≠ 0 := by
      have hlt := he.isStart.slot_lt
      omega
    rcases nextOutermost_of_isFilling hsize hmarked hindex hfilling with
      ⟨d, filled, hnext, hfilled, hfound⟩ | ⟨hnone, hfound⟩
    · let found : Tracer := { tracer.place d with memory := .filled filled }
      exact .inl ⟨d, found.resetCounters, filled, hnext, by rw [hfound],
        ⟨rfl, rfl, hnext.isStart.isBoundary, rfl, rfl, rfl⟩, rfl, hfilled⟩
    · exact .inr ⟨hnone, hfound⟩

theorem nextBoundary_fst (h : HasTracedMain mask connectivity n tracer)
    (hnone : ∀ e, mask.IsStart connectivity e → mask.LeadsToOne connectivity e →
      mask.slot e < n) : tracer.nextBoundary.1 = false := by
  rcases h.nextBoundary_cases with ⟨e, -, -, hnext, -⟩ | ⟨-, hfound⟩
  · have hlt := hnone e hnext.isStart hnext.holds
    have hle := hnext.le_slot
    omega
  · exact hfound

/-- One round of the loop: the next outermost start is found and its circuit is recorded. -/
theorem exists_found (h : HasTracedMain mask connectivity n tracer)
    (he : mask.IsNextStart connectivity (mask.LeadsToOne connectivity) n e) :
    ∃ found, tracer.nextBoundary = (true, found) ∧
      found.IsFoundAt mask connectivity (fun _ ↦ 0) e ∧
      HasTracedMain mask connectivity (mask.slot e + 1) (found.scanned e) := by
  rcases h.nextBoundary_cases with ⟨d, found, cells, hnext, hfound, hat, hmemory, hrecords⟩ |
    ⟨hnone, -⟩
  · obtain rfl : d = e := hnext.unique he
    exact ⟨found, hfound, hat, scanned hat hnext hmemory hrecords⟩
  · have hlt := hnone e ⟨he.isStart, he.holds⟩
    have hle := he.le_slot
    omega

end HasTracedMain

/-- The loop makes one tour of every outermost circuit, in raster order of their starts. -/
theorem IsFreshForMain.exists_loop (h : tracer.IsFreshForMain) :
    ∃ last, tracer.Loop ((tracer.mask.startList tracer.connectivity
      (tracer.mask.LeadsToOne tracer.connectivity)).map
        (tracer.mask.tour tracer.connectivity fun _ ↦ 0)) last :=
  exists_loop_map_startList (fun hinv hnone ↦ hinv.nextBoundary_fst hnone)
    (fun hinv he ↦ hinv.exists_found he) h.hasTracedMain

/-- The main mode finds what the mode for all boundaries finds at level one, in the same order. -/
theorem exists_main_tours_eq_filter {all main : Tracer} (hall : all.IsFreshForAll)
    (hmain : main.IsFreshForMain) (hmask : main.mask = all.mask)
    (hconnectivity : main.connectivity = all.connectivity) :
    ∃ allTours allLast mainTours mainLast, all.Loop allTours allLast ∧
      main.Loop mainTours mainLast ∧
      mainTours.map (·.toRound) = (allTours.filter (·.level = 1)).map (·.toRound) := by
  obtain ⟨allLast, hallLoop⟩ := hall.exists_loop
  obtain ⟨mainLast, hmainLoop⟩ := hmain.exists_loop
  refine ⟨_, allLast, _, mainLast, hallLoop, hmainLoop, ?_⟩
  calc
    _ = ((all.mask.startList all.connectivity (all.mask.LeadsToOne all.connectivity)).map
        (all.mask.tour all.connectivity (all.mask.depth all.connectivity ·.past))).map
          (·.toRound) := by
      rw [hmask, hconnectivity, List.map_map, List.map_map]
      rfl
    _ = _ := by rw [Mask.filter_level_allTours]

theorem exists_main_tours_eq_filter_target :
    let all := new .target .null .straight (.fresh Mask.target.size .all)
    let main := new .target .null .straight (.fresh Mask.target.size .main)
    all.IsFreshForAll ∧ main.IsFreshForMain ∧
      ∃ allTours allLast mainTours mainLast, all.Loop allTours allLast ∧
        main.Loop mainTours mainLast ∧
        mainTours.map (·.toRound) = (allTours.filter (·.level = 1)).map (·.toRound) :=
  ⟨isFreshForAll_new .target .null .straight, isFreshForMain_new .target .null .straight,
    exists_main_tours_eq_filter (isFreshForAll_new .target .null .straight)
      (isFreshForMain_new .target .null .straight) rfl rfl⟩

end Tracer

end ContourTracing
