import ContourTracing.Proofs.MainBoundaries
import ContourTracing.Proofs.RunEdges

/-!
# Stops of the search

In every mode the loop stops at vertical boundary sides, in raster order: at all of them, at the
starts of all circuits, or at the outermost starts. A fresh tracer makes one tour from every stop,
so that the tours of its loop depend on nothing but the mask, the connectivity and the mode.
-/

namespace ContourTracing

namespace Mask

variable {mask : Mask} {connectivity : Connectivity} {mode : ScanMode} {e : Position}

/-- The search of the mode stops at the side. -/
def IsStop (mask : Mask) (connectivity : Connectivity) (e : Position) : ScanMode → Prop
  | .single => mask.IsBoundary e ∧ e.side.isVertical = true
  | .all => mask.IsStart connectivity e
  | .main => mask.IsStart connectivity e ∧ mask.LeadsToOne connectivity e

theorem IsStop.isBoundary (h : mask.IsStop connectivity e mode) : mask.IsBoundary e := by
  cases mode with
  | single => exact h.1
  | all => exact IsStart.isBoundary h
  | main => exact h.1.isBoundary

theorem IsStop.isVertical (h : mask.IsStop connectivity e mode) : e.side.isVertical = true := by
  cases mode with
  | single => exact h.2
  | all => exact IsStart.isVertical h
  | main => exact h.1.isVertical

/-- The stops of a mode in raster order. -/
noncomputable def stops (mask : Mask) (connectivity : Connectivity) : ScanMode → List Position
  | .single => mask.runEdges
  | .all => mask.startList connectivity fun _ ↦ True
  | .main => mask.startList connectivity (mask.LeadsToOne connectivity)

theorem mem_stops : e ∈ mask.stops connectivity mode ↔ mask.IsStop connectivity e mode := by
  cases mode with
  | single => exact mem_runEdges
  | all => exact mem_startList.trans (and_iff_left trivial)
  | main => exact mem_startList

theorem pairwise_stops (mask : Mask) (connectivity : Connectivity) (mode : ScanMode) :
    (mask.stops connectivity mode).Pairwise fun s t ↦ mask.slot s < mask.slot t := by
  cases mode with
  | single => exact mask.pairwise_runEdges
  | all | main => exact mask.pairwise_map_atSlot _ _

/-- The nesting level that the mode tells at a stop. -/
noncomputable def levelAt (mask : Mask) (connectivity : Connectivity) :
    ScanMode → Position → ℤ
  | .single, _ | .main, _ => 0
  | .all, e => mask.depth connectivity e.past

/-- The tours from all stops of a mode. -/
noncomputable def tours (mask : Mask) (connectivity : Connectivity) (mode : ScanMode) :
    List Tour :=
  (mask.stops connectivity mode).map
    (mask.tour connectivity (mask.levelAt connectivity mode))

theorem map_start_tours (mask : Mask) (connectivity : Connectivity) (mode : ScanMode) :
    (mask.tours connectivity mode).map (·.start) = mask.stops connectivity mode := by
  have hstart : (·.start) ∘ mask.tour connectivity (mask.levelAt connectivity mode) = id := rfl
  rw [tours, List.map_map, hstart, List.map_id]

theorem mem_map_start_tours :
    e ∈ (mask.tours connectivity mode).map (·.start) ↔ mask.IsStop connectivity e mode := by
  rw [map_start_tours, mem_stops]

end Mask

namespace Tracer

/-- A tracer of the mode that stands nowhere and has blank buffers. -/
def IsFreshFor (tracer : Tracer) : ScanMode → Prop
  | .single => tracer.IsFreshForSingle
  | .all => tracer.IsFreshForAll
  | .main => tracer.IsFreshForMain

theorem isFreshFor_new (mask : Mask) (policy : Value) (connectivity : Connectivity)
    (mode : ScanMode) :
    (new mask policy connectivity (.fresh mask.size mode)).IsFreshFor mode := by
  cases mode with
  | single => exact isFreshForSingle_new mask policy connectivity
  | all => exact isFreshForAll_new mask policy connectivity
  | main => exact isFreshForMain_new mask policy connectivity

/-- The loop makes one tour from every stop of its mode. -/
theorem IsFreshFor.exists_loop {tracer : Tracer} {mode : ScanMode}
    (h : tracer.IsFreshFor mode) :
    ∃ last, tracer.Loop (tracer.mask.tours tracer.connectivity mode) last := by
  cases mode with
  | single => exact IsFreshForSingle.exists_loop h
  | all => exact IsFreshForAll.exists_loop h
  | main => exact IsFreshForMain.exists_loop h

end Tracer

end ContourTracing
