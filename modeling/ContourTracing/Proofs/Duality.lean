import ContourTracing.Proofs.Padding
import ContourTracing.Proofs.SegmentContour

/-!
# Objects and holes

In the complement of a mask the gaps are set and the objects are not, and corners connect the ones
exactly if they do not connect the others. Seen from the pixels across, a boundary inside the
rectangle is then a boundary of the complement: every step of the one walk leads back along a step
of the other, with diagonal steps and rotations exchanged. So a scan of the complement meets the
same sides in reverse, and encloses the same area in the opposite sense.
-/

namespace ContourTracing

open Finset Function

/-! ## Steps back -/

/-- The turn of a step back, seen from the pixels across. -/
def Turn.dual : Turn → Turn
  | straight => straight
  | diagonal => rotation
  | rotation => diagonal

namespace Position

variable (s : Position)

theorem flip_flip : s.flip.flip = s := by
  obtain ⟨x, y, side⟩ := s
  cases side <;> simp [flip, across, Side.opposite, Side.outward]

theorem flip_injective : Injective flip :=
  LeftInverse.injective flip_flip

/-- After a step the dual turn leads back, seen from the pixels across. -/
theorem move_flip_move (turn : Turn) :
    let t := (s.move (s.side.step turn)).flip
    t.move (t.side.step turn.dual) = s.flip := by
  obtain ⟨x, y, side⟩ := s
  cases side <;> cases turn <;>
    simp [flip, move, across, Turn.dual, Side.step, Side.along, Side.outward, Side.clockwise,
      Side.counterclockwise, Side.opposite]

/-- The two pixels that decide about the step back, by the step. -/
theorem ahead_flip_move (turn : Turn) :
    let t := (s.move (s.side.step turn)).flip
    match turn with
    | .straight => t.ahead = s.across ∧ t.aheadAcross = s.pixel
    | .diagonal => t.ahead = s.pixel ∧ t.aheadAcross = s.ahead
    | .rotation => t.ahead = s.aheadAcross ∧ t.aheadAcross = s.across := by
  obtain ⟨x, y, side⟩ := s
  cases side <;> cases turn <;>
    simp [flip, move, across, pixel, ahead, aheadAcross, Side.step, Side.along, Side.outward,
      Side.clockwise, Side.counterclockwise, Side.opposite]

theorem areaAt_flip : Tally.areaAt s.flip = -Tally.areaAt s := by
  obtain ⟨x, y, side⟩ := s
  cases side <;> simp [Tally.areaAt, flip, across, Side.opposite, Side.outward]
  ring

end Position

namespace Mask

variable {mask : Mask} {connectivity : Connectivity} {s t : Position} {p : Pixel}

/-! ## The complement -/

/-- The mask with every pixel negated. -/
def complement (mask : Mask) : Mask where
  width := mask.width
  height := mask.height
  bits := mask.bits.map (!·)
  size_bits := by rw [Array.size_map, mask.size_bits]

theorem isSet_complement (h : mask.Contains p.1 p.2) :
    mask.complement.isSet p.1 p.2 = !mask.isSet p.1 p.2 := by
  have hindex : mask.index p.1 p.2 < mask.bits.size := by
    rw [mask.size_bits]
    exact index_lt_size h
  have hbit : mask.complement.bit (mask.index p.1 p.2) = !mask.bit (mask.index p.1 p.2) := by
    simp [bit, complement, hindex]
  have hcomplement : mask.complement.Contains p.1 p.2 := h
  rw [← bit_index h, ← hbit]
  exact (bit_index hcomplement).symm

theorem contains_aheadAcross (h : mask.Contains s.x s.y)
    (hacross : mask.Contains s.across.1 s.across.2) (hahead : mask.Contains s.ahead.1 s.ahead.2) :
    mask.Contains s.aheadAcross.1 s.aheadAcross.2 := by
  obtain ⟨x, y, side⟩ := s
  unfold Contains at *
  cases side <;>
    simp only [Position.across, Position.ahead, Position.aheadAcross, Side.along, Side.clockwise,
      Side.outward] at * <;> omega

theorem isSet_complement_of_isSet (h : mask.isSet p.1 p.2 = true) :
    mask.complement.isSet p.1 p.2 = false := by
  rw [isSet_complement (mask.contains_of_isSet h), h]
  rfl

theorem isSet_complement_of_not_isSet (hp : mask.Contains p.1 p.2)
    (h : mask.isSet p.1 p.2 = false) : mask.complement.isSet p.1 p.2 = true := by
  rw [isSet_complement hp, h]
  rfl

theorem isBoundary_flip_complement (hs : mask.IsBoundary s)
    (hacross : mask.Contains s.across.1 s.across.2) : mask.complement.IsBoundary s.flip := by
  refine ⟨isSet_complement_of_not_isSet hacross hs.2, ?_⟩
  rw [s.across_flip]
  exact isSet_complement_of_isSet hs.1

/-! ## One step back -/

/-- With sides connected, a diagonal step goes through the pixel ahead. -/
theorem isSet_ahead_of_chooseTurn (h : mask.chooseTurn .straight s = .diagonal) :
    mask.isSet s.ahead.1 s.ahead.2 = true := by
  by_contra hunset
  simp [chooseTurn, hunset] at h

/-- With corners connected, a rotation turns away from an unset pixel diagonally ahead. -/
theorem not_isSet_aheadAcross_of_chooseTurn (h : mask.chooseTurn .diagonal s = .rotation) :
    mask.isSet s.aheadAcross.1 s.aheadAcross.2 = false := by
  cases hset : mask.isSet s.aheadAcross.1 s.aheadAcross.2 with
  | false => rfl
  | true => simp [chooseTurn, hset] at h

/-- Back from the next side the complement makes the dual turn. -/
theorem chooseTurn_flip_successor (hs : mask.IsBoundary s)
    (hacross : mask.Contains s.across.1 s.across.2)
    (hnext : mask.Contains (mask.successor connectivity s).across.1
      (mask.successor connectivity s).across.2) :
    mask.complement.chooseTurn connectivity.opposite (mask.successor connectivity s).flip =
      (mask.chooseTurn connectivity s).dual := by
  have hpixel : mask.complement.isSet s.pixel.1 s.pixel.2 = false := isSet_complement_of_isSet hs.1
  have hgap : mask.complement.isSet s.across.1 s.across.2 = true :=
    isSet_complement_of_not_isSet hacross hs.2
  have hback := s.ahead_flip_move (mask.chooseTurn connectivity s)
  unfold successor chooseStep at *
  cases hturn : mask.chooseTurn connectivity s with
  | straight =>
    rw [hturn] at hback
    cases connectivity <;> simp [chooseTurn, hback, hgap, hpixel, Connectivity.opposite, Turn.dual]
  | diagonal =>
    rw [hturn] at hback
    cases connectivity with
    | straight =>
      have hahead : mask.complement.isSet s.ahead.1 s.ahead.2 = false :=
        isSet_complement_of_isSet (isSet_ahead_of_chooseTurn hturn)
      simp [chooseTurn, hback, hpixel, hahead, Connectivity.opposite, Turn.dual]
    | diagonal => simp [chooseTurn, hback, hpixel, Connectivity.opposite, Turn.dual]
  | rotation =>
    rw [hturn] at hback hnext
    cases connectivity with
    | straight => simp [chooseTurn, hback, hgap, Connectivity.opposite, Turn.dual]
    | diagonal =>
      -- the pixel across from the next side is the one ahead, so that all four lie inside
      rw [s.move_rotation] at hnext
      have hcorner : mask.complement.isSet s.aheadAcross.1 s.aheadAcross.2 = true :=
        isSet_complement_of_not_isSet
          (contains_aheadAcross (contains_of_isBoundary hs) hacross hnext)
          (not_isSet_aheadAcross_of_chooseTurn hturn)
      simp [chooseTurn, hback, hgap, hcorner, Connectivity.opposite, Turn.dual]

theorem successor_flip_successor (hs : mask.IsBoundary s)
    (hacross : mask.Contains s.across.1 s.across.2)
    (hnext : mask.Contains (mask.successor connectivity s).across.1
      (mask.successor connectivity s).across.2) :
    mask.complement.successor connectivity.opposite (mask.successor connectivity s).flip =
      s.flip := by
  rw [successor, chooseStep, chooseTurn_flip_successor hs hacross hnext]
  exact s.move_flip_move _

/-! ## Whole circuits -/

/-- A boundary inside the rectangle: all pixels across from its sides belong to it. -/
def IsInner (mask : Mask) (connectivity : Connectivity) (s : Position) : Prop :=
  ∀ t ∈ mask.circuit connectivity s, mask.Contains t.across.1 t.across.2

theorem IsInner.of_mem (hin : mask.IsInner connectivity s) (hs : mask.IsBoundary s)
    (ht : t ∈ mask.circuit connectivity s) : mask.IsInner connectivity t := fun _ hu ↦
  hin _ (mem_circuit_trans hs ht hu)

theorem coe_circuit (h : mask.IsBoundary s) :
    (mask.circuit connectivity s : Cycle Position) =
      periodicOrbit (mask.successor connectivity) s := by
  have hperiod : mask.period connectivity (mask.successor connectivity s) =
      mask.period connectivity s := minimalPeriod_apply (mem_periodicPts h)
  calc
    _ = periodicOrbit (mask.successor connectivity) (mask.successor connectivity s) := by
      rw [periodicOrbit_def, circuit, ← hperiod]
      rfl
    _ = _ := periodicOrbit_apply_eq (mem_periodicPts h)

/-- From another side of it a circuit is the same, turned to begin there. -/
theorem isRotated_circuit (h : mask.IsBoundary s) (ht : t ∈ mask.circuit connectivity s) :
    (mask.circuit connectivity t).IsRotated (mask.circuit connectivity s) := by
  have htb := isBoundary_of_mem_circuit h ht
  obtain ⟨n, rfl⟩ := (mem_circuit_iff h).1 ht
  rw [← Cycle.coe_eq_coe, coe_circuit h, coe_circuit htb]
  exact periodicOrbit_apply_iterate_eq (mem_periodicPts h) n

section Inner

variable (hs : mask.IsBoundary s) (hin : mask.IsInner connectivity s)

include hs hin

theorem contains_across_walk (n : ℕ) :
    mask.Contains (mask.walk connectivity s n).across.1 (mask.walk connectivity s n).across.2 :=
  hin _ (walk_mem_circuit hs n)

theorem chooseTurn_flip_walk (n : ℕ) :
    mask.complement.chooseTurn connectivity.opposite (mask.walk connectivity s (n + 1)).flip =
      (mask.chooseTurn connectivity (mask.walk connectivity s n)).dual := by
  have hnext := contains_across_walk hs hin (n + 1)
  rw [walk_succ] at hnext ⊢
  exact chooseTurn_flip_successor (isBoundary_walk connectivity hs n)
    (contains_across_walk hs hin n) hnext

/-- So many steps of the complement lead back over as many steps. -/
theorem iterate_flip_walk (m n : ℕ) :
    (mask.complement.successor connectivity.opposite)^[n] (mask.walk connectivity s (m + n)).flip =
      (mask.walk connectivity s m).flip := by
  induction n with
  | zero => rfl
  | succ n ih =>
    have hnext := contains_across_walk hs hin (m + n + 1)
    rw [walk_succ] at hnext
    rw [iterate_succ_apply, ← Nat.add_assoc, walk_succ, successor_flip_successor
      (isBoundary_walk connectivity hs _) (contains_across_walk hs hin _) hnext, ih]

theorem period_flip :
    mask.complement.period connectivity.opposite s.flip = mask.period connectivity s := by
  refine minimalPeriod_eq_minimalPeriod_iff.2 fun n ↦ ?_
  have hback := iterate_flip_walk hs hin 0 n
  rw [Nat.zero_add] at hback
  constructor
  · intro hperiodic
    have hinj := (mask.complement.successor_injOn connectivity.opposite).iterate
      (fun _ ht ↦ isBoundary_successor ht) n
    refine Position.flip_injective (hinj ?_ ?_ (hback.trans hperiodic.eq.symm))
    · exact isBoundary_flip_complement (isBoundary_walk connectivity hs n)
        (contains_across_walk hs hin n)
    · exact isBoundary_flip_complement hs (contains_across_walk hs hin 0)
  · intro hperiodic
    have hwalk : mask.walk connectivity s n = s := hperiodic
    rwa [hwalk] at hback

/-- The circuit of the complement runs through the same sides in reverse. -/
theorem isRotated_circuit_flip :
    (mask.complement.circuit connectivity.opposite s.flip).IsRotated
      ((mask.circuit connectivity s).map Position.flip).reverse := by
  let sides := (List.range (mask.period connectivity s)).map (mask.walk connectivity s)
  have hsides : sides.IsRotated (mask.circuit connectivity s) := by
    rw [← Cycle.coe_eq_coe, coe_circuit hs]
    rfl
  have hcircuit : mask.complement.circuit connectivity.opposite s.flip =
      (sides.map Position.flip).reverse := by
    apply List.ext_getElem
    · simp [sides, length_circuit, period_flip hs hin]
    · intro n hn hn'
      rw [length_circuit, period_flip hs hin] at hn
      have hback := iterate_flip_walk hs hin (mask.period connectivity s - 1 - n) (n + 1)
      have hsum : mask.period connectivity s - 1 - n + (n + 1) = mask.period connectivity s := by
        omega
      rw [hsum, walk_period] at hback
      simpa [circuit, sides] using hback
  rw [hcircuit]
  exact (hsides.map Position.flip).reverse

/-- Around both circuits the same turns are made, with diagonal steps and rotations exchanged. -/
theorem sum_turns_flip (weight : Turn → ℤ) :
    ((mask.complement.circuit connectivity.opposite s.flip).map fun t ↦
        weight (mask.complement.chooseTurn connectivity.opposite t)).sum =
      ((mask.circuit connectivity s).map fun t ↦
        weight (mask.chooseTurn connectivity t).dual).sum := by
  rw [((isRotated_circuit_flip hs hin).perm.map _).sum_eq, List.map_reverse, List.sum_reverse,
    List.map_map, sum_map_circuit mask connectivity s fun t ↦
      weight (mask.chooseTurn connectivity t).dual, circuit, List.map_map]
  apply congrArg List.sum
  apply List.map_congr_left
  intro n _
  exact congrArg weight (chooseTurn_flip_walk hs hin n)

/-- What one of the two circuits adds to the area the other one subtracts. -/
theorem sum_areaAt_flip :
    ((mask.complement.circuit connectivity.opposite s.flip).map Tally.areaAt).sum =
      -((mask.circuit connectivity s).map Tally.areaAt).sum := by
  rw [((isRotated_circuit_flip hs hin).perm.map _).sum_eq, List.map_reverse, List.sum_reverse,
    List.map_map, List.sum_neg, List.map_map]
  apply congrArg List.sum
  apply List.map_congr_left
  intro t _
  exact t.areaAt_flip

end Inner

/-- Inside a frame of unset pixels, however thick, all boundaries are inner ones. -/
theorem contains_across_of_isBoundary_pad {left top right bottom : ℕ} (hleft : 0 < left)
    (htop : 0 < top) (hright : 0 < right) (hbottom : 0 < bottom)
    (hs : (mask.pad left top right bottom).IsBoundary s) :
    (mask.pad left top right bottom).Contains s.across.1 s.across.2 := by
  have hset : mask.isSet (s.x - left) (s.y - top) = true := by
    rw [← hs.1]
    exact (mask.isSet_pad left top right bottom s.pixel).symm
  obtain ⟨hx, hw, hy, hh⟩ := mask.contains_of_isSet hset
  obtain ⟨x, y, side⟩ := s
  unfold Contains
  cases side <;> simp only [pad, Position.across, Side.outward] at * <;> omega

end Mask

/-! ## Scans of both -/

/-- The counters of one walk, for those of the other: the steps of the two kinds at corners are
exchanged, and the area is enclosed in the opposite sense. -/
structure Tally.IsDual (dual tally : Tally) : Prop where
  steps_eq : dual.steps = tally.steps
  straights_eq : dual.straights = tally.straights
  diagonals_eq : dual.diagonals = tally.rotations
  rotations_eq : dual.rotations = tally.diagonals
  area_eq : dual.area = -tally.area

theorem Tally.IsDual.of_weigh {dual tally : Tally} (hsteps : dual.steps = tally.steps)
    (hweigh : ∀ weight : Turn → ℤ, dual.weigh weight = tally.weigh fun turn ↦ weight turn.dual)
    (harea : dual.area = -tally.area) : dual.IsDual tally := by
  have hcount (turn : Turn) := hweigh fun other ↦ if other = turn then 1 else 0
  refine ⟨hsteps, ?_, ?_, ?_, harea⟩
  · simpa [weigh, Turn.dual] using hcount .straight
  · simpa [weigh, Turn.dual] using hcount .diagonal
  · simpa [weigh, Turn.dual] using hcount .rotation

namespace Tracer

variable {tracer dual found : Tracer} {s t : Position}

theorem weigh_scanned_circuit (htally : found.tally = {}) (s : Position) (weight : Turn → ℤ) :
    (found.scanned s).tally.weigh weight =
      ((found.mask.circuit found.connectivity s).map fun t ↦
        weight (found.mask.chooseTurn found.connectivity t)).sum := by
  rw [weigh_scanned htally, Mask.sum_map_circuit]

/-- From whichever side of an inner boundary, a scan of the complement counts the same as one of
the mask, in dual terms. -/
theorem isDual_scanned (hs : tracer.mask.IsBoundary s)
    (hin : tracer.mask.IsInner tracer.connectivity s) (hmask : dual.mask = tracer.mask.complement)
    (hconnectivity : dual.connectivity = tracer.connectivity.opposite)
    (ht : t ∈ tracer.mask.circuit tracer.connectivity s) :
    ((dual.place t.flip).scanned t.flip).tally.IsDual ((tracer.place s).scanned s).tally := by
  have htb := Mask.isBoundary_of_mem_circuit hs ht
  have htin := hin.of_mem hs ht
  have hperm := Mask.circuit_perm hs ht
  have hcircuit : (dual.place t.flip).mask.circuit (dual.place t.flip).connectivity t.flip =
      tracer.mask.complement.circuit tracer.connectivity.opposite t.flip := by
    rw [← hmask, ← hconnectivity]
    rfl
  apply Tally.IsDual.of_weigh
  · have hlength := hperm.length_eq
    rw [Mask.length_circuit, Mask.length_circuit] at hlength
    have hperiod := congrArg List.length hcircuit
    rw [Mask.length_circuit, Mask.length_circuit, Mask.period_flip htb htin] at hperiod
    rw [steps_scanned (dual.tally_place t.flip), hperiod, steps_scanned (tracer.tally_place s)]
    exact hlength
  · intro weight
    calc
      _ = ((tracer.mask.complement.circuit tracer.connectivity.opposite t.flip).map fun u ↦
          weight (tracer.mask.complement.chooseTurn tracer.connectivity.opposite u)).sum := by
        rw [weigh_scanned_circuit (dual.tally_place t.flip), hcircuit, ← hmask, ← hconnectivity]
        rfl
      _ = ((tracer.mask.circuit tracer.connectivity t).map fun u ↦
          weight (tracer.mask.chooseTurn tracer.connectivity u).dual).sum :=
        Mask.sum_turns_flip htb htin weight
      _ = ((tracer.mask.circuit tracer.connectivity s).map fun u ↦
          weight (tracer.mask.chooseTurn tracer.connectivity u).dual).sum :=
        (hperm.map _).sum_eq
      _ = _ := (weigh_scanned_circuit (tracer.tally_place s) s fun turn ↦ weight turn.dual).symm
  · rw [area_scanned (dual.tally_place t.flip), hcircuit, Mask.sum_areaAt_flip htb htin,
      (hperm.map _).sum_eq, area_scanned (tracer.tally_place s)]
    rfl

/-- A boundary all of whose sides have the pixel across inside the rectangle, and the same
boundary in the complement: from the flip of each of its sides a complete scan meets the flipped
sides in reverse order, and its counters are the dual ones. -/
theorem exists_dual_scans (hs : tracer.mask.IsBoundary s)
    (hmask : dual.mask = tracer.mask.complement)
    (hconnectivity : dual.connectivity = tracer.connectivity.opposite) (interval interval' : ℕ) :
    ∃ sides last, tracer.IsClosedScan interval s sides last ∧
      ((∀ t ∈ sides, tracer.mask.Contains t.across.1 t.across.2) →
        ∀ t ∈ sides, ∃ sides' last', dual.IsClosedScan interval' t.flip sides' last' ∧
          sides'.IsRotated (sides.map Position.flip).reverse ∧
          last'.tally.IsDual last.tally) := by
  refine ⟨_, _, isClosedScan_circuit hs interval, fun hin t ht ↦ ?_⟩
  have htb := Mask.isBoundary_of_mem_circuit hs ht
  have hflip : dual.mask.IsBoundary t.flip := by
    rw [hmask]
    exact Mask.isBoundary_flip_complement htb (hin t ht)
  refine ⟨_, _, isClosedScan_circuit hflip interval', ?_,
    isDual_scanned hs hin hmask hconnectivity ht⟩
  rw [hmask, hconnectivity]
  exact (Mask.isRotated_circuit_flip htb (Mask.IsInner.of_mem hin hs ht)).trans
    ((Mask.isRotated_circuit hs ht).map Position.flip).reverse

theorem exists_dual_scans_target :
    let mask := Mask.target.pad 1 1 1 1
    let tracer := new mask .null .straight .nothing
    let dual := new mask.complement .null .diagonal .nothing
    tracer.mask.IsBoundary ⟨1, 1, .left⟩ ∧
      ∃ sides last, tracer.IsClosedScan 1 ⟨1, 1, .left⟩ sides last ∧
        (∀ t ∈ sides, tracer.mask.Contains t.across.1 t.across.2) ∧
        ∀ t ∈ sides, ∃ sides' last', dual.IsClosedScan 1 t.flip sides' last' ∧
          sides'.IsRotated (sides.map Position.flip).reverse ∧ last'.tally.IsDual last.tally := by
  intro mask tracer dual
  have hs : tracer.mask.IsBoundary ⟨1, 1, .left⟩ := by decide
  have hmask : dual.mask = tracer.mask.complement := rfl
  have hconnectivity : dual.connectivity = tracer.connectivity.opposite := rfl
  obtain ⟨sides, last, hscan, hdual⟩ := exists_dual_scans hs hmask hconnectivity 1 1
  have hin (t : Position) (ht : t ∈ sides) : tracer.mask.Contains t.across.1 t.across.2 :=
    Mask.contains_across_of_isBoundary_pad one_pos one_pos one_pos one_pos
      (hscan.isBoundary t ht)
  exact ⟨hs, sides, last, hscan, hin, hdual hin⟩

end Tracer

end ContourTracing
