import Mathlib.Logic.Function.Iterate
import ContourTracing.Proofs.Modes
import ContourTracing.Proofs.Turning

/-!
# Moved boundaries

A walk looks at the pixels around it and never at its own coordinates. So if two masks have the
same boundary sides up to a vector, and the same step leads on from each of them, then the loops
of every mode make the same tours, moved by that vector. Only the enclosed area is summed up from
columns; around a circuit as many columns are added as are subtracted, so that it is the same too.
-/

namespace ContourTracing

/-! ## Moved positions -/

namespace Position

/-- The position moved by a vector. -/
def translate (v : Pixel) (s : Position) : Position :=
  ⟨s.x + v.1, s.y + v.2, s.side⟩

variable (v : Pixel) (s : Position)

@[simp]
theorem translate_side : (s.translate v).side = s.side := rfl

@[simp]
theorem translate_y : (s.translate v).y = s.y + v.2 := rfl

theorem pixel_translate : (s.translate v).pixel = s.pixel + v := rfl

theorem ahead_translate : (s.translate v).ahead = s.ahead + v := by
  ext <;> simp [translate, ahead] <;> omega

theorem across_translate : (s.translate v).across = s.across + v := by
  ext <;> simp [translate, across] <;> omega

theorem aheadAcross_translate : (s.translate v).aheadAcross = s.aheadAcross + v := by
  ext <;> simp [translate, aheadAcross, ahead] <;> omega

@[simp]
theorem edge_translate : (s.translate v).edge = s.edge + v.1 := by
  unfold edge translate
  split <;> ring

theorem past_translate : (s.translate v).past = s.past + v := by
  rw [past, edge_translate, translate_y]
  rfl

theorem move_translate (step : Step) : (s.translate v).move step = (s.move step).translate v := by
  simp only [move, translate, mk.injEq, and_true]
  omega

@[simp]
theorem translate_zero : s.translate 0 = s := by
  simp [translate]

theorem translate_injective : Function.Injective (translate v) := by
  intro s t h
  simp only [translate, mk.injEq, add_left_inj] at h
  obtain ⟨x, y, side⟩ := s
  obtain ⟨x', y', side'⟩ := t
  simpa using h

theorem translate_surjective : Function.Surjective (translate v) := fun s ↦
  ⟨s.translate (-v), by simp [translate]⟩

end Position

/-- The arrival of the same step on the moved position. -/
def Arrival.translate (v : Pixel) (arrival : Arrival) : Arrival :=
  ⟨arrival.step, arrival.position.translate v⟩

/-- The tour with the same steps, tally and nesting level from the moved start. -/
def Tour.translate (v : Pixel) (tour : Tour) : Tour where
  start := tour.start.translate v
  arrivals := tour.arrivals.map (·.translate v)
  tally := tour.tally
  level := tour.level

theorem Tour.translate_zero (tour : Tour) : tour.translate 0 = tour := by
  have hid : Arrival.translate 0 = id := funext fun arrival ↦ by simp [Arrival.translate]
  simp [translate, hid]

/-! ## Moved lists of sides -/

section Sides

variable (v : Pixel) (sides : List Position) (p : Pixel)

theorem encloses_map_translate :
    Encloses (sides.map (·.translate v)) (p + v) ↔ Encloses sides p := by
  have hleft : leftsUpTo (sides.map (·.translate v)) (p + v) = leftsUpTo sides p := by
    simp [leftsUpTo, List.countP_map, Function.comp_def, Position.translate]
  have hright : rightsBefore (sides.map (·.translate v)) (p + v) = rightsBefore sides p := by
    simp [rightsBefore, List.countP_map, Function.comp_def, Position.translate]
  rw [Encloses, Encloses, hleft, hright]

end Sides

/-! ## The columns of a circuit -/

namespace Tally

theorem areaAt_translate (v : Pixel) (s : Position) :
    areaAt (s.translate v) = areaAt s + v.1 * s.side.along.2 := by
  obtain ⟨x, y, side⟩ := s
  cases side <;> simp [areaAt, Position.translate, Side.along, Side.clockwise, Side.outward]
  ring

/-- A moved walk is counted alike, but for the columns that it adds or subtracts. -/
theorem foldl_record_translate (v : Pixel) (arrivals : List Arrival) (tally : Tally) (shift : ℤ) :
    (arrivals.map (·.translate v)).foldl
        (fun tally arrival ↦ tally.record arrival.step arrival.position)
        { tally with area := tally.area + shift } =
      let last := arrivals.foldl
        (fun tally arrival ↦ tally.record arrival.step arrival.position) tally
      { last with area := last.area + (shift +
          v.1 * ((arrivals.map (·.position)).map (·.side.along.2)).sum) } := by
  induction arrivals generalizing tally shift with
  | nil => simp
  | cons arrival arrivals ih =>
    have hrecord : ({ tally with area := tally.area + shift } : Tally).record
        (arrival.translate v).step (arrival.translate v).position =
          { tally.record arrival.step arrival.position with
            area := (tally.record arrival.step arrival.position).area +
              (shift + v.1 * arrival.position.side.along.2) } := by
      rw [record, record, Arrival.translate, areaAt_translate, mk.injEq]
      exact ⟨rfl, rfl, rfl, by ring⟩
    rw [List.map_cons, List.foldl_cons, hrecord, ih]
    simp only [List.foldl_cons, List.map_cons, List.sum_cons, mk.injEq, true_and]
    ring

end Tally

namespace Mask

open Function

variable {mask mask' : Mask} {connectivity connectivity' : Connectivity} {v : Pixel}
  {e s : Position} {p : Pixel} {mode : ScanMode}

/-- A circuit goes down as far as it goes up. -/
theorem sum_along_circuit (mask : Mask) (connectivity : Connectivity) (s : Position) :
    ((mask.circuit connectivity s).map (·.side.along.2)).sum = 0 := by
  have hclosed (g : Position → ℤ) := sum_range_succ_of_periodic
    (g := fun i ↦ g (mask.walk connectivity s i)) (congrArg g (mask.walk_period connectivity s))
  have hmiddle := hclosed (·.middle.2)
  have halong := hclosed (·.side.along.2)
  have hstep (i : ℕ) : (mask.walk connectivity s (i + 1)).middle.2 =
      (mask.walk connectivity s i).middle.2 + (mask.walk connectivity s i).side.along.2 +
        (mask.walk connectivity s (i + 1)).side.along.2 := by
    rw [walk_succ, middle_successor, Position.corner]
    rfl
  simp only [hstep, Finset.sum_add_distrib] at hmiddle
  rw [sum_map_circuit mask connectivity s (·.side.along.2)]
  linarith

/-- The boundary sides of the second mask are those of the first one, moved by a vector, and the
walks along them make the same steps. -/
structure IsTranslate (mask : Mask) (connectivity : Connectivity) (mask' : Mask)
    (connectivity' : Connectivity) (v : Pixel) : Prop where
  isBoundary_iff : ∀ s, mask'.IsBoundary (s.translate v) ↔ mask.IsBoundary s
  chooseStep_eq : ∀ s, mask.IsBoundary s →
    mask'.chooseStep connectivity' (s.translate v) = mask.chooseStep connectivity s

namespace IsTranslate

variable (h : mask.IsTranslate connectivity mask' connectivity' v)

include h

/-! ### Walks -/

theorem successor_translate (hs : mask.IsBoundary s) :
    mask'.successor connectivity' (s.translate v) =
      (mask.successor connectivity s).translate v := by
  rw [successor, h.chooseStep_eq s hs, Position.move_translate, successor]

theorem iterate_translate (hs : mask.IsBoundary s) (n : ℕ) :
    (mask'.successor connectivity')^[n] (s.translate v) =
      ((mask.successor connectivity)^[n] s).translate v := by
  induction n with
  | zero => rfl
  | succ n ih =>
    rw [iterate_succ_apply', ih, h.successor_translate (isBoundary_iterate hs n),
      ← iterate_succ_apply' (mask.successor connectivity)]

theorem period_translate (hs : mask.IsBoundary s) :
    mask'.period connectivity' (s.translate v) = mask.period connectivity s := by
  refine minimalPeriod_eq_minimalPeriod_iff.2 fun n ↦ ?_
  rw [IsPeriodicPt, IsFixedPt, h.iterate_translate hs, (Position.translate_injective v).eq_iff]
  rfl

theorem circuit_translate (hs : mask.IsBoundary s) :
    mask'.circuit connectivity' (s.translate v) =
      (mask.circuit connectivity s).map (·.translate v) := by
  rw [circuit, circuit, h.period_translate hs, List.map_map]
  exact List.map_congr_left fun n _ ↦ h.iterate_translate hs (n + 1)

theorem arrivals_translate (hs : mask.IsBoundary s) (count : ℕ) :
    mask'.arrivals connectivity' count (s.translate v) =
      (mask.arrivals connectivity count s).map (·.translate v) := by
  induction count generalizing s with
  | zero => rfl
  | succ count ih =>
    rw [arrivals, arrivals, h.successor_translate hs, h.chooseStep_eq s hs,
      ih (isBoundary_successor hs)]
    rfl

/-! ### Stops and nesting levels -/

theorem slot_le_iff_translate (he : mask.IsBoundary e) (hs : mask.IsBoundary s)
    (hev : e.side.isVertical = true) (hsv : s.side.isVertical = true) :
    mask'.slot (e.translate v) ≤ mask'.slot (s.translate v) ↔ mask.slot e ≤ mask.slot s := by
  rw [slot_le_iff ((h.isBoundary_iff e).2 he) ((h.isBoundary_iff s).2 hs) hev hsv,
    slot_le_iff he hs hev hsv]
  simp

theorem isStart_iff (e : Position) :
    mask'.IsStart connectivity' (e.translate v) ↔ mask.IsStart connectivity e := by
  constructor
  · rintro ⟨hb, hv, hle⟩
    have he := (h.isBoundary_iff e).1 hb
    refine ⟨he, hv, fun s hs hsv ↦ ?_⟩
    rw [h.circuit_translate he, List.forall_mem_map] at hle
    exact (h.slot_le_iff_translate he (isBoundary_of_mem_circuit he hs) hv hsv).1 (hle s hs hsv)
  · rintro ⟨he, hv, hle⟩
    refine ⟨(h.isBoundary_iff e).2 he, hv, ?_⟩
    rw [h.circuit_translate he, List.forall_mem_map]
    intro s hs hsv
    exact (h.slot_le_iff_translate he (isBoundary_of_mem_circuit he hs) hv hsv).2 (hle s hs hsv)

theorem starts_eq : mask'.starts connectivity' =
    (mask.starts connectivity).image (·.translate v) := by
  ext e
  obtain ⟨d, rfl⟩ := Position.translate_surjective v e
  simp [h.isStart_iff, (Position.translate_injective v).eq_iff]

theorem depth_add (p : Pixel) : mask'.depth connectivity' (p + v) = mask.depth connectivity p := by
  have hinj := Position.translate_injective v
  rw [depth, h.starts_eq, Finset.filter_image, Finset.card_image_of_injective _ hinj, depth]
  congr 1
  refine Finset.filter_congr fun e he ↦ ?_
  rw [h.circuit_translate (mem_starts.1 he).isBoundary, encloses_map_translate]

theorem isStop_iff (e : Position) (mode : ScanMode) :
    mask'.IsStop connectivity' (e.translate v) mode ↔ mask.IsStop connectivity e mode := by
  cases mode with
  | single => exact and_congr_left' (h.isBoundary_iff e)
  | all => exact h.isStart_iff e
  | main =>
    refine and_congr (h.isStart_iff e) ?_
    rw [LeadsToOne, Position.past_translate, h.depth_add, LeadsToOne]

theorem levelAt_translate (mode : ScanMode) (e : Position) :
    mask'.levelAt connectivity' mode (e.translate v) = mask.levelAt connectivity mode e := by
  cases mode with
  | single | main => rfl
  | all => rw [levelAt, Position.past_translate, h.depth_add, levelAt]

theorem stops_eq (mode : ScanMode) : mask'.stops connectivity' mode =
    (mask.stops connectivity mode).map (·.translate v) := by
  apply eq_of_pairwise_slot (mask'.pairwise_stops connectivity' mode)
  · rw [List.pairwise_map]
    apply List.Pairwise.imp_of_mem _ (mask.pairwise_stops connectivity mode)
    intro s t hs ht hlt
    rw [mem_stops] at hs ht
    rw [← not_le] at hlt ⊢
    rwa [h.slot_le_iff_translate ht.isBoundary hs.isBoundary ht.isVertical hs.isVertical]
  · intro e
    obtain ⟨d, rfl⟩ := Position.translate_surjective v e
    rw [mem_stops, h.isStop_iff, List.mem_map_of_injective (Position.translate_injective v),
      mem_stops]

/-! ### Tours -/

theorem tally_translate (hs : mask.IsBoundary s) :
    Tally.ofArrivals (mask'.arrivals connectivity' (mask'.period connectivity' (s.translate v))
        (s.translate v)) =
      Tally.ofArrivals (mask.arrivals connectivity (mask.period connectivity s) s) := by
  have hshift := Tally.foldl_record_translate v
    (mask.arrivals connectivity (mask.period connectivity s) s) {} 0
  have hpositions := mask.map_position_arrivals connectivity (mask.period connectivity s) s
  have hsum := mask.sum_along_circuit connectivity s
  rw [circuit, ← hpositions] at hsum
  rw [hsum, mul_zero, add_zero] at hshift
  rw [h.period_translate hs, h.arrivals_translate hs, Tally.ofArrivals, Tally.ofArrivals]
  simpa using hshift

theorem tour_translate {level level' : Position → ℤ} (he : mask.IsBoundary e)
    (hlevel : level' (e.translate v) = level e) :
    mask'.tour connectivity' level' (e.translate v) =
      (mask.tour connectivity level e).translate v := by
  rw [tour, h.tally_translate he, h.period_translate he, h.arrivals_translate he, hlevel]
  rfl

/-- In every mode the loops make the same tours, moved by the vector. -/
theorem tours_eq (mode : ScanMode) : mask'.tours connectivity' mode =
    (mask.tours connectivity mode).map (·.translate v) := by
  rw [tours, h.stops_eq, tours, List.map_map, List.map_map]
  refine List.map_congr_left fun e he ↦ ?_
  exact h.tour_translate (mem_stops.1 he).isBoundary (h.levelAt_translate mode e)

end IsTranslate

end Mask

end ContourTracing
