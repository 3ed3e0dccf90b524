import ContourTracing.Proofs.Coverage
import ContourTracing.Proofs.Turning

/-!
# Scans from any boundary side

On the boundary sides a step is a permutation. A scan goes around one of its cycles, from whichever
side the tracer has been put on: it is back there after at least four steps, since it turns fully
on the way, and after no more steps than there are boundary sides.
-/

namespace ContourTracing

namespace Turn

theorem quarters_bounds (turn : Turn) : -1 ≤ turn.quarters ∧ turn.quarters ≤ 1 := by
  cases turn <;> decide

end Turn

namespace Mask

variable {mask : Mask} {connectivity : Connectivity} {s t : Position}

theorem length_circuit (mask : Mask) (connectivity : Connectivity) (s : Position) :
    (mask.circuit connectivity s).length = mask.period connectivity s := by
  rw [circuit, List.length_map, List.length_range]

theorem getLast?_circuit (h : mask.IsBoundary s) :
    (mask.circuit connectivity s).getLast? = some s := by
  obtain ⟨count, hcount⟩ : ∃ count, mask.period connectivity s = count + 1 :=
    ⟨_, (Nat.sub_add_cancel (period_pos h)).symm⟩
  rw [circuit, hcount, List.range_succ, List.map_append, List.map_singleton, List.getLast?_concat,
    ← hcount, iterate_period]

theorem abs_sum_quarters_le (mask : Mask) (connectivity : Connectivity) (sides : List Position) :
    |(sides.map (mask.quarters connectivity)).sum| ≤ sides.length := by
  induction sides with
  | nil => simp
  | cons s sides ih =>
    have hs : |mask.quarters connectivity s| ≤ 1 :=
      abs_le.2 (mask.chooseTurn connectivity s).quarters_bounds
    calc
      _ ≤ |mask.quarters connectivity s| + |(sides.map (mask.quarters connectivity)).sum| :=
        abs_add_le ..
      _ ≤ 1 + sides.length := add_le_add hs ih
      _ = _ := by rw [List.length_cons]; push_cast; ring

/-- A full turn takes four steps at least. -/
theorem four_le_period (h : mask.IsBoundary s) : 4 ≤ mask.period connectivity s := by
  obtain ⟨e, he, hs⟩ := exists_isStart connectivity h
  have hle := mask.abs_sum_quarters_le connectivity (mask.circuit connectivity s)
  have hfour : |4 * e.orientation| = 4 := by
    unfold Position.orientation
    split <;> rfl
  rw [he.sum_quarters hs, hfour, length_circuit] at hle
  exact_mod_cast hle

theorem period_le_ncard (h : mask.IsBoundary s) :
    mask.period connectivity s ≤ {t | mask.IsBoundary t}.ncard := by
  have hsubset : ((mask.circuit connectivity s).toFinset : Set Position) ⊆
      {t | mask.IsBoundary t} := fun t ht ↦
    isBoundary_of_mem_circuit h (List.mem_toFinset.1 ht)
  have hcard := Set.ncard_le_ncard hsubset mask.finite_isBoundary
  rwa [Set.ncard_coe_finset, List.toFinset_card_of_nodup (nodup_circuit h), length_circuit] at hcard

/-- Two walks that meet visit the same sides. -/
theorem circuit_eq_or_disjoint (hs : mask.IsBoundary s) (ht : mask.IsBoundary t) :
    (∀ u, u ∈ mask.circuit connectivity s ↔ u ∈ mask.circuit connectivity t) ∨
      (mask.circuit connectivity s).Disjoint (mask.circuit connectivity t) := by
  rw [or_iff_not_imp_right]
  intro hmeet u
  simp only [List.Disjoint, not_forall, not_false_eq_true, exists_prop] at hmeet
  obtain ⟨v, hvs, hvt, -⟩ := hmeet
  rw [← (circuit_perm hs hvs).mem_iff, (circuit_perm ht hvt).mem_iff]

end Mask

namespace Tracer

variable {tracer found : Tracer} {interval : ℕ} {s t : Position}

/-- A step from a side leads to the successor of the side, whatever the tracer remembers. -/
theorem exists_next (h : found.position? = some s) (hunfinished : found.isFinished = false) :
    ∃ next, found.next = .ok next ∧
      next.position? = some (found.mask.successor found.connectivity s) := by
  obtain ⟨placement, hplacement, rfl⟩ := Option.map_eq_some_iff.1 h
  have hstanding : placement.isFinished = false := by
    simpa only [isFinished, hplacement] using hunfinished
  refine ⟨found.advance placement, ?_, found.position?_advance placement⟩
  simp only [next, hplacement, hstanding, Bool.false_eq_true, if_false]

/-- A scan without a context from a side, with the sides on which its steps arrive: it closes
there, and has not been twice anywhere. -/
structure IsClosedScan (tracer : Tracer) (interval : ℕ) (s : Position) (sides : List Position)
    (last : Tracer) : Prop where
  goTo_eq : tracer.goTo s.x s.y s.side = .ok (tracer.place s)
  scan_eq : (Stack.bare (tracer.place s)).scan .silent interval =
    ⟨.ok sides.length, sides.length, .bare last⟩
  sides_eq : ((tracer.place s).arrivals sides.length).map (·.position) = sides
  isBoundary : ∀ t ∈ sides, tracer.mask.IsBoundary t
  nodup : sides.Nodup
  position?_last : last.position? = some s
  getLast?_eq : sides.getLast? = some s
  four_le : 4 ≤ sides.length
  length_le : sides.length ≤ {t | tracer.mask.IsBoundary t}.ncard

theorem tally_place (tracer : Tracer) (s : Position) : (tracer.place s).tally = {} := rfl

theorem goTo_eq_place (h : tracer.mask.IsBoundary s) :
    tracer.goTo s.x s.y s.side = .ok (tracer.place s) :=
  tracer.goTo_eq_ok_iff.2 ⟨Mask.contains_of_isBoundary h, rfl⟩

theorem steps_scanned (htally : found.tally = {}) (s : Position) :
    (found.scanned s).tally.steps = found.mask.period found.connectivity s := by
  rw [scanned, tally_foldl_arrive, htally, Tally.steps_foldl_record, Mask.length_arrivals]
  exact Nat.zero_add _

theorem tally_scanned_place (tracer : Tracer) (s : Position) :
    ((tracer.place s).scanned s).tally = Tally.ofArrivals (tracer.mask.arrivals tracer.connectivity
      (tracer.mask.period tracer.connectivity s) s) :=
  tally_foldl_arrive ..

/-- The steps around a circuit are those that the mask tells. -/
theorem arrivals_place (hs : tracer.mask.IsBoundary s) :
    (tracer.place s).arrivals (tracer.mask.period tracer.connectivity s) =
      tracer.mask.arrivals tracer.connectivity (tracer.mask.period tracer.connectivity s) s := by
  have hplaced : (tracer.place s).mask.IsBoundary s := hs
  exact (scan_eq hplaced rfl 1).2

theorem isClosedScan_circuit (h : tracer.mask.IsBoundary s) (interval : ℕ) :
    tracer.IsClosedScan interval s (tracer.mask.circuit tracer.connectivity s)
      ((tracer.place s).scanned s) := by
  have hplaced : (tracer.place s).mask.IsBoundary s := h
  obtain ⟨hscan, -⟩ := scan_eq hplaced rfl interval
  rw [steps_scanned (tracer.tally_place s)] at hscan
  have hlength := tracer.mask.length_circuit tracer.connectivity s
  refine ⟨goTo_eq_place h, ?_, ?_, fun t ht ↦ Mask.isBoundary_of_mem_circuit h ht,
    Mask.nodup_circuit h, position?_scanned rfl, Mask.getLast?_circuit h, ?_, ?_⟩
  · rw [hscan, hlength]
    rfl
  · rw [hlength]
    rw [arrivals_place h]
    exact Mask.map_position_arrivals ..
  · rw [hlength]
    exact Mask.four_le_period h
  · rw [hlength]
    exact Mask.period_le_ncard h

/-- Steps permute the boundary sides, and scans go around the cycles of this permutation. -/
theorem exists_closed_scans (tracer : Tracer) (interval : ℕ) (hs : tracer.mask.IsBoundary s)
    (ht : tracer.mask.IsBoundary t) :
    (∀ found : Tracer, found.mask = tracer.mask → found.connectivity = tracer.connectivity →
      found.position? = some s → found.isFinished = false →
        ∃ next, found.next = .ok next ∧
          next.position? = some (tracer.mask.successor tracer.connectivity s)) ∧
    tracer.mask.IsBoundary (tracer.mask.successor tracer.connectivity s) ∧
    (s ≠ t → tracer.mask.successor tracer.connectivity s ≠
      tracer.mask.successor tracer.connectivity t) ∧
    ∃ sides last sides' last', tracer.IsClosedScan interval s sides last ∧
      tracer.IsClosedScan interval t sides' last' ∧
        ((∀ u, u ∈ sides ↔ u ∈ sides') ∨ sides.Disjoint sides') := by
  refine ⟨?_, Mask.isBoundary_successor hs, fun hne heq ↦ hne ?_, ?_⟩
  · intro found hmask hconnectivity hposition hunfinished
    rw [← hmask, ← hconnectivity]
    exact exists_next hposition hunfinished
  · exact tracer.mask.successor_injOn tracer.connectivity hs ht heq
  · exact ⟨_, _, _, _, isClosedScan_circuit hs interval, isClosedScan_circuit ht interval,
      Mask.circuit_eq_or_disjoint hs ht⟩

theorem exists_closed_scans_target :
    let tracer := new .target .null .diagonal .nothing
    tracer.mask.IsBoundary ⟨0, 0, .left⟩ ∧ tracer.mask.IsBoundary ⟨0, 1, .right⟩ ∧
      ∃ sides last sides' last', tracer.IsClosedScan 1 ⟨0, 0, .left⟩ sides last ∧
        tracer.IsClosedScan 1 ⟨0, 1, .right⟩ sides' last' ∧
          ((∀ u, u ∈ sides ↔ u ∈ sides') ∨ sides.Disjoint sides') :=
  ⟨by decide, by decide,
    (exists_closed_scans (new .target .null .diagonal .nothing) 1 (by decide) (by decide)).2.2.2⟩

end Tracer

end ContourTracing
