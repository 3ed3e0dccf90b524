import ContourTracing.Buffer
import ContourTracing.Matrix.Nested
import ContourTracing.Settings
import ContourTracing.Tracer.Basic

/-!
# Making tracers

A tracer is made for a plane matrix with a connectivity and a mode. The modes that remember
boundaries take buffers from outside, or else use buffers of their own.
-/

namespace ContourTracing

/-- Elements outside a matrix are background unless it was made with another policy. -/
def MatrixSource.toMatrixDefault (source : MatrixSource) : Except Fault BinaryMatrix :=
  source.toMatrix (.member (.policy .background))

/-- The mask of a matrix that has to be plane. -/
def BinaryMatrix.mask (matrix : BinaryMatrix) : Except Fault Mask :=
  match matrix.mask? with
  | some mask => .ok mask
  | none => .error (.argument (.planeExpected matrix.dimCount))

/-- The buffers that a mode takes from outside. -/
inductive BufferChoice where
  | none
  | pair (first second : Option Buffer) (isShared : Bool)
  | one (buffer : Option Buffer)

namespace Memory

/-- The memory of a new tracer with buffers from outside. -/
def ofBuffers (mask : Mask) : BufferChoice → Except Fault Memory
  | .none => .ok .nothing
  | .pair first second isShared => do
    let cells name : Option Buffer → Except Fault Cells
      | some buffer => buffer.cellsFor name mask
      | none => .ok (Cells.blank mask.size)
    let external ← cells "buffer1" first
    let internal ← cells "buffer2" second
    return .brackets ⟨external, if isShared then none else some internal⟩ .external 0
  | .one (some buffer) => return .filled (← buffer.cellsFor "buffer" mask)
  | .one none => return .filled (Cells.blank mask.size)

end Memory

namespace Tracer

def make (source : MatrixSource) (connectivity : Value) (buffers : BufferChoice) :
    Except Fault Tracer := do
  let some connectivity := connectivity.connectivity?
    | .error (.argument (.connectivityKind connectivity))
  let matrix ← source.toMatrixDefault
  let mask ← matrix.mask
  return new mask matrix.policy connectivity (← Memory.ofBuffers mask buffers)

/-- A tracer with buffers of its own under the given settings. -/
def ofSettings (source : MatrixSource) (settings : Settings) : Except Fault Tracer := do
  let matrix ← source.toMatrix (.member (.policy settings.policy))
  let mask ← matrix.mask
  let memory := Memory.fresh mask.size settings.mode
  return { new mask matrix.policy settings.connectivity memory with
    interval := settings.interval, line := settings.line }

end Tracer

end ContourTracing
