import ContourTracing.Description
import ContourTracing.Making
import ContourTracing.Operation

/-!
# Objects of a session

The objects of a session are arrays and other values, matrices, contexts, tracers and layers.
Any of them may be handed over as a matrix or as a buffer, though few will do: arrays serve as
both.
-/

namespace ContourTracing

/-- The buffers that a tracer works in, by number. -/
inductive BufferUse where
  | own
  | pair (first second : Option Nat)
  | one (buffer : Nat)
deriving DecidableEq, Repr

inductive SessionObject where
  | value (value : Value)
  | array (array : ArrayBuffer)
  | matrix (matrix : BinaryMatrix)
  | context (cancellation : Cancellation)
  | tracer (tracer : Tracer) (buffers : BufferUse)
  | layer (layer : Layer) (inner : Nat)

/-- The name of the kind of a tracer. -/
def ScanMode.tracerKind : ScanMode → String
  | single => "SingleBoundaryScanner"
  | all => "AllBoundariesScanner"
  | main => "MainBoundariesScanner"

namespace SessionObject

def ofSource : MatrixSource → SessionObject
  | .nested given => value given
  | .dense bits => array (.ofBits bits)
  | .wrapped inner => matrix inner

/-- The object as a matrix. What is neither a value nor an array counts as a single element that
is set, without dimensions. -/
def source : SessionObject → MatrixSource
  | value given => .nested given
  | array cells => .dense cells.toBits
  | matrix inner => .wrapped inner
  | context _ | tracer .. | layer .. => .nested (.bool true)

/-- The object as a buffer, if it is not the absent value. -/
def buffer? : SessionObject → Option Buffer
  | value .null => none
  | value given => some (.other given.kind)
  | array cells => some (.array cells)
  | matrix _ => some (.other "BinaryMatrix")
  | context _ => some (.other "CancellationContext")
  | tracer inner _ => some (.other inner.memory.mode.tracerKind)
  | layer outer _ => some (.other outer.title)

end SessionObject

end ContourTracing
