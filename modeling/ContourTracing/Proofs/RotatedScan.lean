import ContourTracing.Proofs.Duality

/-!
# Scans from other sides of a boundary

Where a boundary is opened makes no difference to what is measured. A scan from another side of it
makes the same steps, turned to begin there, and neither counters nor areas depend on the order of
the steps. A contour point depends on its own step and the position on which it arrives alone, so
that the traced points are turned in the same way.
-/

namespace ContourTracing

open Function

/-! ## Arrivals up to where they begin -/

namespace Tally

theorem record_comm (tally : Tally) (step step' : Step) (position position' : Position) :
    (tally.record step position).record step' position' =
      (tally.record step' position').record step position := by
  simp only [record, mk.injEq, true_and]
  exact ⟨Nat.add_right_comm .., Nat.add_right_comm .., Int.add_right_comm ..⟩

/-- The order in which arrivals are counted makes no difference. -/
theorem ofArrivals_perm {arrivals arrivals' : List Arrival} (h : arrivals.Perm arrivals') :
    ofArrivals arrivals = ofArrivals arrivals' :=
  h.foldl_eq' (fun _ _ _ _ tally ↦ record_comm tally _ _ _ _) _

end Tally

namespace Mask

variable {mask : Mask} {connectivity : Connectivity} {s t : Position}

/-- The arrivals of a walk, each told by the side from which its step is made. -/
theorem arrivals_eq_map_walk (mask : Mask) (connectivity : Connectivity) (count : ℕ)
    (s : Position) : mask.arrivals connectivity count s =
      ((List.range count).map (mask.walk connectivity s)).map fun t ↦
        ⟨mask.chooseStep connectivity t, mask.successor connectivity t⟩ := by
  rw [arrivals_eq, List.map_map]
  refine List.map_congr_left fun n _ ↦ ?_
  rw [walk_succ, comp_apply]

/-- From another side of it a circuit has the same arrivals, turned to begin there. -/
theorem isRotated_arrivals (h : mask.IsBoundary s) (ht : t ∈ mask.circuit connectivity s) :
    (mask.arrivals connectivity (mask.period connectivity t) t).IsRotated
      (mask.arrivals connectivity (mask.period connectivity s) s) := by
  obtain ⟨n, rfl⟩ := (mem_circuit_iff h).1 ht
  rw [arrivals_eq_map_walk, arrivals_eq_map_walk]
  refine List.IsRotated.map (Cycle.coe_eq_coe.1 ?_) _
  exact periodicOrbit_apply_iterate_eq (mem_periodicPts h) n

end Mask

/-! ## Measurements -/

namespace Tracer

variable {tracer : Tracer} {s t : Position}

@[simp]
theorem line_foldl_arrive (tracer : Tracer) (arrivals : List Arrival) :
    (arrivals.foldl arrive tracer).line = tracer.line := by
  induction arrivals generalizing tracer with
  | nil => rfl
  | cons arrival arrivals ih => exact ih (tracer.arrive arrival)

theorem line_scanned_place (tracer : Tracer) (s : Position) :
    ((tracer.place s).scanned s).line = tracer.line :=
  line_foldl_arrive ..

/-- Wherever a boundary is opened, its scan counts the same steps and the same area. -/
theorem tally_scanned_eq (hs : tracer.mask.IsBoundary s)
    (ht : t ∈ tracer.mask.circuit tracer.connectivity s) :
    ((tracer.place t).scanned t).tally = ((tracer.place s).scanned s).tally := by
  rw [tally_scanned_place, tally_scanned_place]
  exact Tally.ofArrivals_perm (Mask.isRotated_arrivals hs ht).perm

/-- Areas and lengths of a tracer can be told from its tally and its own style. -/
theorem measures_congr {found found' : Tracer} (htally : found'.tally = found.tally)
    (hline : found'.line = found.line) (value : Value) :
    found'.area value = found.area value ∧ found'.perimeter value = found.perimeter value := by
  rw [area, area, perimeter, perimeter, htally, hline]
  exact ⟨rfl, rfl⟩

/-- The points of a trace of a whole boundary, in the order of its arrivals. -/
theorem trace_place (hs : tracer.mask.IsBoundary s) (line : ContourLine) (interval : ℕ) :
    let points := (tracer.mask.arrivals tracer.connectivity
      (tracer.mask.period tracer.connectivity s) s).map fun arrival ↦
        line.point arrival.position arrival.step
    (Stack.bare (tracer.place s)).trace (.member (.line line)) .silent interval =
      ⟨.ok points, points.length, .bare ((tracer.place s).scanned s)⟩ := by
  intro points
  have hplaced : (tracer.place s).mask.IsBoundary s := hs
  rw [trace_eq hplaced rfl rfl, List.length_map, Mask.length_arrivals]
  rfl

/-- From every side that a scan meets, another scan makes the same steps up to where they begin. It
leaves the same counters and the same areas and lengths in every style, and a trace from there keeps
the points of a trace from the first side, turned in the same way. -/
theorem exists_rotated_scans (hs : tracer.mask.IsBoundary s) (interval interval' : ℕ) :
    ∃ sides last, tracer.IsClosedScan interval s sides last ∧
      ∀ t ∈ sides, ∃ sides' last', tracer.IsClosedScan interval' t sides' last' ∧
        sides'.IsRotated sides ∧ last'.tally = last.tally ∧
        (∀ value, last'.area value = last.area value ∧
          last'.perimeter value = last.perimeter value) ∧
        ∀ line : ContourLine, ∃ points points' : List Point,
          (Stack.bare (tracer.place s)).trace (.member (.line line)) .silent interval =
              ⟨.ok points, points.length, .bare last⟩ ∧
            (Stack.bare (tracer.place t)).trace (.member (.line line)) .silent interval' =
              ⟨.ok points', points'.length, .bare last'⟩ ∧
            points'.IsRotated points := by
  refine ⟨_, _, isClosedScan_circuit hs interval, fun t ht ↦ ?_⟩
  have htb := Mask.isBoundary_of_mem_circuit hs ht
  have htally := tally_scanned_eq hs ht
  have hline : ((tracer.place t).scanned t).line = ((tracer.place s).scanned s).line := by
    rw [line_scanned_place, line_scanned_place]
  refine ⟨_, _, isClosedScan_circuit htb interval', Mask.isRotated_circuit hs ht, htally,
    measures_congr htally hline, fun line ↦ ?_⟩
  exact ⟨_, _, trace_place hs line interval, trace_place htb line interval',
    (Mask.isRotated_arrivals hs ht).map _⟩

theorem exists_rotated_scans_target :
    let tracer := new .target .null .diagonal .nothing
    tracer.mask.IsBoundary ⟨0, 0, .left⟩ ∧
      ∃ sides last, tracer.IsClosedScan 1 ⟨0, 0, .left⟩ sides last ∧
        ∀ t ∈ sides, ∃ sides' last', tracer.IsClosedScan 2 t sides' last' ∧
          sides'.IsRotated sides ∧ last'.tally = last.tally ∧
          (∀ value, last'.area value = last.area value ∧
            last'.perimeter value = last.perimeter value) ∧
          ∀ line : ContourLine, ∃ points points' : List Point,
            (Stack.bare (tracer.place ⟨0, 0, .left⟩)).trace (.member (.line line)) .silent 1 =
                ⟨.ok points, points.length, .bare last⟩ ∧
              (Stack.bare (tracer.place t)).trace (.member (.line line)) .silent 2 =
                ⟨.ok points', points'.length, .bare last'⟩ ∧
              points'.IsRotated points := by
  intro tracer
  have hs : tracer.mask.IsBoundary ⟨0, 0, .left⟩ := by decide
  exact ⟨hs, exists_rotated_scans hs 1 2⟩

end Tracer

end ContourTracing
