import ContourTracing.Making
import ContourTracing.Proofs.CheckedTracer
import ContourTracing.Proofs.Fresh
import ContourTracing.Proofs.Rejection

/-!
# Tracers stay on their masks

A new tracer stands nowhere, and its buffers have the size of its mask, whether they are its own or
arrays from outside. Every change keeps tracers on their masks and buffers at their sizes. So
whatever is done with a tracer, steps and searches read and write nothing that is not there.
-/

namespace ContourTracing

/-! ## What changes keep -/

namespace Memory

variable {memory memory' : Memory} {mask : Mask}

theorem map_size_record (memory : Memory) (mask : Mask) (position : Position) :
    (memory.record mask position).buffers.map Array.size = memory.buffers.map Array.size := by
  cases memory with
  | nothing => rfl
  | filled cells => simp [record, buffers]
  | brackets pair active level =>
    obtain ⟨first, second⟩ := pair
    cases active with
    | external => simp [record, buffers, BracketPair.putBracket]
    | internal => cases second <;> simp [record, buffers, BracketPair.putBracket]

theorem IsRewritten.map_size (h : memory.IsRewritten memory') :
    memory'.buffers.map Array.size = memory.buffers.map Array.size := by
  cases h with
  | nothing => rfl
  | brackets first second => simp [buffers, first, ← Option.toList_map, second]
  | filled size => simp [buffers, size]

theorem size_eq_of_map_size (h : memory'.buffers.map Array.size = memory.buffers.map Array.size)
    (hsize : ∀ cells ∈ memory.buffers, cells.size = mask.size) :
    ∀ cells ∈ memory'.buffers, cells.size = mask.size := by
  have hmap : ∀ size ∈ memory.buffers.map Array.size, size = mask.size :=
    List.forall_mem_map.2 hsize
  rw [← h] at hmap
  exact List.forall_mem_map.1 hmap

end Memory

namespace Tracer

variable {tracer changed : Tracer}

theorem Change.isSound (hchange : tracer.Change changed) (h : tracer.IsSound) :
    changed.IsSound := by
  cases hchange with
  | place hcontains =>
    refine ⟨fun position hposition ↦ ?_, h.size_eq⟩
    cases hposition
    exact hcontains
  | next hnext =>
    rw [Tracer.next] at hnext
    split at hnext
    · cases hnext
    · next placement hplacement =>
      have hcontains := h.contains placement.current (by rw [position?, hplacement]; rfl)
      cases hnext
      split
      · exact h
      · refine ⟨fun position hposition ↦ ?_,
          Memory.size_eq_of_map_size (tracer.memory.map_size_record tracer.mask _) h.size_eq⟩
        rw [position?_advance] at hposition
        cases hposition
        exact Mask.contains_successor tracer.connectivity hcontains
  | search =>
    obtain ⟨memory, hsize, heq | ⟨found, e, hcontains, -, heq⟩⟩ := tracer.nextBoundary_cases
    · rw [heq]
      exact ⟨h.contains, Memory.size_eq_of_map_size hsize h.size_eq⟩
    · rw [heq]
      refine ⟨fun position hposition ↦ ?_, Memory.size_eq_of_map_size hsize h.size_eq⟩
      cases hposition
      exact hcontains
  | reset | settings => exact ⟨h.contains, h.size_eq⟩
  | rewrite hmemory =>
    exact ⟨h.contains, Memory.size_eq_of_map_size hmemory.map_size h.size_eq⟩

theorem Changes.isSound (hchanges : tracer.Changes changed) (h : tracer.IsSound) :
    changed.IsSound :=
  hchanges.invariant IsSound (fun _ _ hchange ↦ hchange.isSound) h

end Tracer

/-! ## New tracers -/

/-- The array has all its elements. -/
def ArrayBuffer.IsWhole (array : ArrayBuffer) : Prop :=
  array.cells.size = Shape.size array.shape

namespace ArrayBuffer

theorem size_of_setAt {kind : ElementKind} {cells cells' : Cells} {element : ℤ × Value}
    (h : make.setAt kind cells element = .ok cells') : cells'.size = cells.size := by
  simp only [make.setAt, bind, Except.bind] at h
  split at h
  · cases h
  · split at h
    · cases h
      exact Array.size_setIfInBounds ..
    · cases h

theorem size_of_foldlM_setAt {kind : ElementKind} {elements : List (ℤ × Value)}
    {cells cells' : Cells} (h : elements.foldlM (make.setAt kind) cells = .ok cells') :
    cells'.size = cells.size := by
  induction elements generalizing cells with
  | nil =>
    cases h
    rfl
  | cons element elements ih =>
    rw [List.foldlM_cons] at h
    cases hset : make.setAt kind cells element with
    | error fault =>
      rw [hset] at h
      cases h
    | ok changed =>
      rw [hset] at h
      exact (ih h).trans (size_of_setAt hset)

/-- Every array that can be made is whole, so that a session hands out no other ones. -/
theorem isWhole_of_make {dimensions : List ℤ} {kind : ElementKind} {order : CellOrder}
    {elements : List (ℤ × Value)} {array : ArrayBuffer}
    (h : make dimensions kind order elements = .ok array) : array.IsWhole := by
  simp only [make, bind, Except.bind] at h
  split at h
  · cases h
  · split at h
    · cases h
    · next shape _ _ cells hcells =>
      cases h
      exact (size_of_foldlM_setAt hcells).trans Array.size_replicate

theorem isWhole_ofBits (array : BitArray) : (ofBits array).IsWhole := by
  rw [IsWhole, ofBits, Array.size_map]
  exact array.size_bits

end ArrayBuffer

/-- The buffers from outside. -/
def BufferChoice.buffers : BufferChoice → List Buffer
  | none => []
  | pair first second _ => first.toList ++ second.toList
  | one buffer => buffer.toList

theorem Buffer.size_of_cellsFor {buffer : Buffer} {name : String} {mask : Mask} {cells : Cells}
    (h : buffer.cellsFor name mask = .ok cells)
    (hwhole : ∀ array, buffer = .array array → array.IsWhole) : cells.size = mask.size := by
  cases buffer with
  | other kind => cases h
  | array array =>
    simp only [Buffer.cellsFor] at h
    split at h
    · cases h
    · next hshape =>
      split at h
      · cases h
      · cases h
        rw [hwhole array rfl, Decidable.not_not.1 hshape, Shape.size, Mask.size]
        simp [Nat.mul_comm]

/-- A buffer from outside or, without one, a buffer of the tracer's own. -/
theorem Buffer.size_of_choice {choice : Option Buffer} {name : String} {mask : Mask} {cells : Cells}
    (h : (match choice with
      | some buffer => buffer.cellsFor name mask
      | none => .ok (Cells.blank mask.size)) = .ok cells)
    (hwhole : ∀ array, .array array ∈ choice.toList → array.IsWhole) : cells.size = mask.size := by
  cases choice with
  | none =>
    cases h
    exact Array.size_replicate
  | some buffer =>
    refine size_of_cellsFor h fun array harray ↦ hwhole array ?_
    rw [harray]
    exact List.mem_singleton_self _

theorem Memory.size_of_ofBuffers {mask : Mask} {choice : BufferChoice} {memory : Memory}
    (h : ofBuffers mask choice = .ok memory)
    (hwhole : ∀ array, .array array ∈ choice.buffers → array.IsWhole) :
    ∀ cells ∈ memory.buffers, cells.size = mask.size := by
  cases choice with
  | none =>
    cases h
    exact fun cells hcells ↦ absurd hcells List.not_mem_nil
  | one choice =>
    cases choice with
    | none =>
      cases h
      exact fun cells hcells ↦ List.mem_singleton.1 hcells ▸ Array.size_replicate
    | some buffer =>
      simp only [ofBuffers, bind, Except.bind] at h
      split at h
      · cases h
      · next cells hcells =>
        cases h
        have hsize := @Buffer.size_of_choice (some buffer) _ _ _ hcells hwhole
        exact fun cells hmem ↦ List.mem_singleton.1 hmem ▸ hsize
  | pair first second isShared =>
    simp only [ofBuffers, bind, Except.bind] at h
    split at h
    · cases h
    · next external hexternal =>
      split at h
      · cases h
      · next internal hinternal =>
        cases h
        have hfirst := Buffer.size_of_choice hexternal
          fun array harray ↦ hwhole array (List.mem_append_left _ harray)
        have hsecond := Buffer.size_of_choice hinternal
          fun array harray ↦ hwhole array (List.mem_append_right _ harray)
        intro cells hcells
        rcases List.mem_cons.1 hcells with rfl | hcells
        · exact hfirst
        · cases isShared with
          | true => exact absurd hcells List.not_mem_nil
          | false => exact List.mem_singleton.1 hcells ▸ hsecond

theorem Memory.size_fresh (size : ℕ) (mode : ScanMode) :
    ∀ cells ∈ (fresh size mode).buffers, cells.size = size := by
  cases mode <;> simp [fresh, buffers, Cells.blank]

/-- A tracer as it has been made, with arrays for buffers or under settings. -/
inductive Tracer.IsMade : Tracer → Prop
  | make {source : MatrixSource} {connectivity : Value} {choice : BufferChoice} {tracer : Tracer} :
    (∀ array, .array array ∈ choice.buffers → array.IsWhole) →
      Tracer.make source connectivity choice = .ok tracer → IsMade tracer
  | settings {source : MatrixSource} {settings : Settings} {tracer : Tracer} :
    Tracer.ofSettings source settings = .ok tracer → IsMade tracer

theorem Tracer.IsMade.isSound {tracer : Tracer} (h : tracer.IsMade) : tracer.IsSound := by
  have hnowhere (hplacement : tracer.placement = none) (position : Position)
      (hposition : tracer.position? = some position) :
      tracer.mask.Contains position.x position.y := by
    rw [position?, hplacement] at hposition
    cases hposition
  cases h with
  | make hwhole hmake =>
    obtain ⟨hmemory, hplacement, -⟩ := memory_eq_of_make hmake
    exact ⟨hnowhere hplacement, Memory.size_of_ofBuffers hmemory hwhole⟩
  | settings hsettings =>
    obtain ⟨hmemory, hplacement, -⟩ := memory_eq_of_settings hsettings
    refine ⟨hnowhere hplacement, ?_⟩
    rw [hmemory]
    exact Memory.size_fresh _ _

/-! ## After any operations -/

/-- Operations that move a tracer, or may do so. -/
def Operation.isMove : Operation → Bool
  | nextBoundary | next _ | goTo _ _ _ | reset | scan _ _ | trace _ _ _ => true
  | _ => false

namespace Stack

variable {stack reached : Stack}

/-- Only a call that names the coordinates can be refused for them. -/
theorem exists_goTo_of_bounds {operation : Operation} {cause : BoundsFault}
    (hmove : operation.isMove = true)
    (h : (stack.perform operation).result = .error (.bounds cause)) :
    ∃ x y side, operation = .goTo x y side := by
  cases operation with
  | goTo x y side => exact ⟨x, y, side, rfl⟩
  | nextBoundary | reset => cases h
  | next times => cases (of_nextTimes_eq_error (of_map_eq_error h)).2.1
  | scan => exact absurd rfl ((of_isRejection_perform_scan h rfl).2 cause)
  | trace => exact absurd rfl ((of_isRejection_perform_trace h rfl).2 cause)
  | _ => cases hmove

/-- Whatever is done with a tracer, wrapped in layers or not, it stands on its mask if it stands
anywhere, all reads and writes of a step and of a search are of elements that are there, and only
calls with coordinates are refused for being outside. -/
theorem accesses_inside (hmade : stack.tracer.IsMade) (h : stack.Reaches reached) :
    (∀ position, reached.tracer.position? = some position →
      stack.tracer.mask.Contains position.x position.y) ∧
    reached.tracer.checkedNext? = some reached.tracer.next ∧
    reached.tracer.checkedNextBoundary? = some reached.tracer.nextBoundary ∧
    ∀ operation cause, operation.isMove = true →
      (reached.perform operation).result = .error (.bounds cause) →
        ∃ x y side, operation = .goTo x y side := by
  have hsound : reached.tracer.IsSound := h.changes.isSound hmade.isSound
  have hmask : reached.tracer.mask = stack.tracer.mask := h.changes.mask_eq
  refine ⟨fun position hposition ↦ ?_, hsound.checkedNext?_eq, hsound.checkedNextBoundary?_eq,
    fun operation cause ↦ exists_goTo_of_bounds⟩
  rw [← hmask]
  exact hsound.contains position hposition

/-- The buffer is full of marks, and the tracer is put on the last pixel. -/
theorem accesses_inside_target :
    let array : BitArray := ⟨[5, 5], Mask.target.bits, rfl⟩
    let memory := Memory.filled (ArrayBuffer.ofBits array).cells
    let stack := bare (.new .target (.member (.policy .background)) .diagonal memory)
    let put := (stack.perform (.goTo (.int 4) (.int 4) (.member (.side .bottom)))).stack
    let reached := (put.perform .nextBoundary).stack
    stack.tracer.IsMade ∧ stack.Reaches reached ∧
      (∀ position, reached.tracer.position? = some position →
        stack.tracer.mask.Contains position.x position.y) ∧
      reached.tracer.checkedNext? = some reached.tracer.next ∧
      reached.tracer.checkedNextBoundary? = some reached.tracer.nextBoundary ∧
      ∀ operation cause, operation.isMove = true →
        (reached.perform operation).result = .error (.bounds cause) →
          ∃ x y side, operation = .goTo x y side := by
  intro array memory stack put reached
  let choice := BufferChoice.one (some (.array (.ofBits array)))
  have hwhole (buffer : ArrayBuffer) (hbuffer : .array buffer ∈ choice.buffers) :
      buffer.IsWhole := by
    cases List.mem_singleton.1 hbuffer
    exact ArrayBuffer.isWhole_ofBits array
  have hmake : Tracer.make (.dense array) (.member (.connectivity .diagonal)) choice =
      .ok stack.tracer := rfl
  have hmade : stack.tracer.IsMade := .make hwhole hmake
  have hput : stack.Reaches put :=
    .perform (.goTo (.int 4) (.int 4) (.member (.side .bottom))) .refl
  have hreaches : stack.Reaches reached := hput.perform .nextBoundary
  exact ⟨hmade, hreaches, accesses_inside hmade hreaches⟩

end Stack

end ContourTracing
