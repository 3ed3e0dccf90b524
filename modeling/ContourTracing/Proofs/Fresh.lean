import Mathlib.Data.Int.Notation
import ContourTracing.Making

/-!
# Fresh tracers

A fresh tracer stands nowhere, and nothing is marked in its buffers, if it has any. Tracers with
buffers of their own are fresh, and so are those that are made with arrays of zeros. In the mode for
all boundaries the two buffers have to be different ones.
-/

namespace ContourTracing

/-- Cells for a mask, none of them marked. -/
def Cells.IsBlankFor (cells : Cells) (mask : Mask) : Prop :=
  cells.size = mask.size ∧ ∀ index, cells.isMarked index = false

theorem Cells.isBlankFor_blank (mask : Mask) : (Cells.blank mask.size).IsBlankFor mask :=
  ⟨Array.size_replicate, fun index ↦ Cells.isMarked_blank mask.size index⟩

/-- An array of zeros. -/
def Buffer.IsZero : Buffer → Prop
  | .array buffer =>
    buffer.cells.size = Shape.size buffer.shape ∧ ∀ index, buffer.cells.isMarked index = false
  | .other _ => False

theorem ArrayBuffer.isZero_of_make {dimensions : List ℤ} {kind : ElementKind} {order : CellOrder}
    {buffer : ArrayBuffer} (h : ArrayBuffer.make dimensions kind order [] = .ok buffer) :
    (Buffer.array buffer).IsZero := by
  unfold ArrayBuffer.make at h
  cases hshape : Shape.make kind.bytes dimensions with
  | error fault =>
    rw [hshape] at h
    cases h
  | ok shape =>
    rw [hshape] at h
    cases h
    exact ⟨Array.size_replicate, fun index ↦ Cells.isMarked_blank (Shape.size shape) index⟩

theorem Buffer.IsZero.isBlankFor {buffer : Buffer} {name : String} {mask : Mask} {cells : Cells}
    (hzero : buffer.IsZero) (h : buffer.cellsFor name mask = .ok cells) :
    cells.IsBlankFor mask := by
  cases buffer with
  | other kind => exact hzero.elim
  | array buffer =>
    obtain ⟨hsize, hblank⟩ := hzero
    simp only [Buffer.cellsFor] at h
    split at h
    · cases h
    · next hshape =>
      split at h
      · cases h
      · cases h
        refine ⟨?_, hblank⟩
        rw [hsize, Decidable.not_not.1 hshape, Shape.size, Mask.size]
        simp [Nat.mul_comm]

/-- A buffer of zeros or, without a choice, one of the tracer's own. -/
theorem Buffer.isBlankFor_of_choice {choice : Option Buffer} {name : String} {mask : Mask}
    {cells : Cells}
    (h : (match choice with
      | some buffer => buffer.cellsFor name mask
      | none => .ok (Cells.blank mask.size)) = .ok cells)
    (hzero : ∀ buffer ∈ choice, buffer.IsZero) : cells.IsBlankFor mask := by
  cases choice with
  | none =>
    cases h
    exact Cells.isBlankFor_blank mask
  | some buffer => exact (hzero buffer rfl).isBlankFor h

namespace Tracer

/-- A tracer without a memory that stands nowhere. -/
structure IsFreshForSingle (tracer : Tracer) : Prop where
  placement_eq : tracer.placement = none
  memory_eq : tracer.memory = .nothing

/-- A tracer for all boundaries that stands nowhere and has two blank buffers. -/
structure IsFreshForAll (tracer : Tracer) : Prop where
  placement_eq : tracer.placement = none
  memory_eq : ∃ external internal, tracer.memory =
      .brackets ⟨external, some internal⟩ .external 0 ∧
    external.IsBlankFor tracer.mask ∧ internal.IsBlankFor tracer.mask

/-- A tracer for outermost objects that stands nowhere and has a blank buffer. -/
structure IsFreshForMain (tracer : Tracer) : Prop where
  placement_eq : tracer.placement = none
  memory_eq : ∃ cells, tracer.memory = .filled cells ∧ cells.IsBlankFor tracer.mask

theorem isFreshForSingle_new (mask : Mask) (policy : Value) (connectivity : Connectivity) :
    (new mask policy connectivity (.fresh mask.size .single)).IsFreshForSingle :=
  ⟨rfl, rfl⟩

theorem isFreshForAll_new (mask : Mask) (policy : Value) (connectivity : Connectivity) :
    (new mask policy connectivity (.fresh mask.size .all)).IsFreshForAll :=
  ⟨rfl, _, _, rfl, Cells.isBlankFor_blank mask, Cells.isBlankFor_blank mask⟩

theorem isFreshForMain_new (mask : Mask) (policy : Value) (connectivity : Connectivity) :
    (new mask policy connectivity (.fresh mask.size .main)).IsFreshForMain :=
  ⟨rfl, _, rfl, Cells.isBlankFor_blank mask⟩

variable {source : MatrixSource} {connectivity : Value} {tracer : Tracer}

/-- What `make` puts together, if it finds no fault. -/
theorem memory_eq_of_make {buffers : BufferChoice}
    (h : Tracer.make source connectivity buffers = .ok tracer) :
    Memory.ofBuffers tracer.mask buffers = .ok tracer.memory ∧ tracer.placement = none ∧
      tracer.tally = {} := by
  simp only [Tracer.make, bind, Except.bind] at h
  split at h
  · split at h
    · cases h
    · split at h
      · cases h
      · split at h
        · cases h
        · next hmemory =>
          cases h
          exact ⟨hmemory, rfl, rfl⟩
  · cases h

theorem isFreshForSingle_of_make (h : Tracer.make source connectivity .none = .ok tracer) :
    tracer.IsFreshForSingle := by
  obtain ⟨hmemory, hplacement, -⟩ := memory_eq_of_make h
  exact ⟨hplacement, (Except.ok.inj hmemory).symm⟩

theorem isFreshForAll_of_make {first second : Option Buffer}
    (h : Tracer.make source connectivity (.pair first second false) = .ok tracer)
    (hfirst : ∀ buffer ∈ first, buffer.IsZero) (hsecond : ∀ buffer ∈ second, buffer.IsZero) :
    tracer.IsFreshForAll := by
  obtain ⟨hmemory, hplacement, -⟩ := memory_eq_of_make h
  simp only [Memory.ofBuffers, bind, Except.bind] at hmemory
  split at hmemory
  · cases hmemory
  · next external hexternal =>
    split at hmemory
    · cases hmemory
    · next internal hinternal =>
      have heq := (Except.ok.inj hmemory).symm
      exact ⟨hplacement, external, internal, heq,
        Buffer.isBlankFor_of_choice hexternal hfirst, Buffer.isBlankFor_of_choice hinternal hsecond⟩

theorem isFreshForMain_of_make {choice : Option Buffer}
    (h : Tracer.make source connectivity (.one choice) = .ok tracer)
    (hzero : ∀ buffer ∈ choice, buffer.IsZero) : tracer.IsFreshForMain := by
  obtain ⟨hmemory, hplacement, -⟩ := memory_eq_of_make h
  cases choice with
  | none =>
    have heq := (Except.ok.inj hmemory).symm
    exact ⟨hplacement, _, heq, Cells.isBlankFor_blank tracer.mask⟩
  | some buffer =>
    simp only [Memory.ofBuffers, bind, Except.bind] at hmemory
    split at hmemory
    · cases hmemory
    · next cells hcells =>
      have heq := (Except.ok.inj hmemory).symm
      exact ⟨hplacement, cells, heq, (hzero buffer rfl).isBlankFor hcells⟩

/-- What `ofSettings` puts together, if it finds no fault. -/
theorem memory_eq_of_settings {settings : Settings}
    (h : Tracer.ofSettings source settings = .ok tracer) :
    tracer.memory = Memory.fresh tracer.mask.size settings.mode ∧ tracer.placement = none ∧
      tracer.tally = {} := by
  simp only [Tracer.ofSettings, bind, Except.bind] at h
  split at h
  · cases h
  · split at h
    · cases h
    · cases h
      exact ⟨rfl, rfl, rfl⟩

theorem isFreshForSingle_of_settings {settings : Settings}
    (h : Tracer.ofSettings source settings = .ok tracer) (hmode : settings.mode = .single) :
    tracer.IsFreshForSingle := by
  obtain ⟨hmemory, hplacement, -⟩ := memory_eq_of_settings h
  rw [hmode] at hmemory
  exact ⟨hplacement, hmemory⟩

theorem isFreshForAll_of_settings {settings : Settings}
    (h : Tracer.ofSettings source settings = .ok tracer) (hmode : settings.mode = .all) :
    tracer.IsFreshForAll := by
  obtain ⟨hmemory, hplacement, -⟩ := memory_eq_of_settings h
  rw [hmode] at hmemory
  exact ⟨hplacement, _, _, hmemory, Cells.isBlankFor_blank tracer.mask,
    Cells.isBlankFor_blank tracer.mask⟩

theorem isFreshForMain_of_settings {settings : Settings}
    (h : Tracer.ofSettings source settings = .ok tracer) (hmode : settings.mode = .main) :
    tracer.IsFreshForMain := by
  obtain ⟨hmemory, hplacement, -⟩ := memory_eq_of_settings h
  rw [hmode] at hmemory
  exact ⟨hplacement, _, hmemory, Cells.isBlankFor_blank tracer.mask⟩

end Tracer

end ContourTracing
