import ContourTracing.Value

/-!
# Faults

Every call that does not succeed fails for one of the causes listed here. A cause belongs to a
family: a bad argument, a coordinate outside a matrix, a tracer that is not ready, a scan that
its context stopped, or a misuse of values that no check of the library foresees. Every cause
has one message, in which the values that are to blame are quoted. A fault whose message cannot be
written, for the digits of an integer in it, is announced as a misuse.
-/

namespace ContourTracing

inductive ArgumentFault where
  | missingMatrix
  | missingParent
  | noDimensions
  | dimensionCountKind (value : Value)
  | dimensionCountRange (count : Int)
  | connectivityKind (value : Value)
  | planeExpected (dimensions : Nat)
  | bufferShape (name : String) (height width : Nat) (found : String)
  | bufferAccess (name : String)
  | sideKind (value : Value)
  | coordinateKind (axis : String) (value : Value)
  | intervalKind (value : Value)
  | intervalRange (interval : Int)
  | lineKind (value : Value)
  | lineUnsupported (value : Value)
  | lineUnknown (value : Value)
  | timeoutRange (value : Value)
  | setting (name : String) (value : Value)

inductive BoundsFault where
  | coordinateBelow (axis : String) (value : Int)
  | coordinateAbove (axis : String) (value : Int) (dimension : Nat)
  | elementOutside (x y : Value) (width height : Nat)

inductive StateFault where
  | notPositioned
  | noSteps
deriving DecidableEq

/-- What a context stops a scan with. All but a failure are interruptions of the scan. -/
inductive ContextFault where
  | cancelled
  | deadline
  | countdown
  | failure
deriving DecidableEq, Repr

inductive Misuse where
  | raggedNesting
  | oddCoordinateCount
  | notANumber
  | unknownPolicy
  | ambiguousTruth
  | incomparable
  | unknownSetting
  | settingsKind
  | argumentsKind
  | noVertex
  | readOnly
  | noParent
  | noObject
  | wrongObject
  | noElement
  | noTransition
  | tooLarge
  | tooManyDigits
  | unfitElement
  | tooManyBuffers
  | unsupportedShape
deriving DecidableEq, Repr

/-- `endless` is a scan of a walk that never returns to its start. -/
inductive Fault where
  | argument (cause : ArgumentFault)
  | bounds (cause : BoundsFault)
  | state (cause : StateFault)
  | context (cause : ContextFault)
  | misuse (cause : Misuse)
  | endless

def ArgumentFault.message : ArgumentFault → String
  | missingMatrix => "Null matrix argument"
  | missingParent => "Null parent scanner"
  | noDimensions => "A matrix must have at least 1 dimension"
  | dimensionCountKind value => "dim_count must be an integer, got " ++ value.quoted
  | dimensionCountRange count =>
    "dim_count = " ++ toString count ++ " is not in range 1.." ++
      toString Connectivity.maxDimensions
  | connectivityKind value => "Unsupported connectivity type: " ++ value.quoted
  | planeExpected dimensions =>
    "Boundary scanners can be used for 2-dimensional matrices only, got " ++ toString dimensions
  | bufferShape name height width found =>
    "matrix and " ++ name ++ " dimensions mismatch: matrix is (" ++ toString height ++ ", " ++
      toString width ++ "), " ++ name ++ " is " ++ found
  | bufferAccess name => name ++ " must be a writeable C-contiguous array"
  | sideKind value => "side must be a Side, got " ++ value.quoted
  | coordinateKind axis value => axis ++ " must be an integer, got " ++ value.quoted
  | intervalKind value => "check_interval must be an integer, got " ++ value.quoted
  | intervalRange interval => "check_interval must be >= 1, got " ++ toString interval
  | lineKind value => "contour_line_type must be a ContourLineType, got " ++ value.quoted
  | lineUnsupported value => "Unsupported contour line type: " ++ value.quoted
  | lineUnknown value => "Unknown contour line type: " ++ value.quoted
  | timeoutRange value => "timeout must be >= 0, got " ++ value.displayed
  | setting name value => "Invalid " ++ name ++ ": " ++ value.quoted

def BoundsFault.message : BoundsFault → String
  | coordinateBelow axis value => "Index " ++ axis ++ " (" ++ toString value ++ ") < 0"
  | coordinateAbove axis value dimension =>
    "Index " ++ axis ++ " (" ++ toString value ++ ") >= dim_" ++ axis ++ " (" ++
      toString dimension ++ ")"
  | elementOutside x y width height =>
    "(" ++ x.displayed ++ ", " ++ y.displayed ++ ") is outside the " ++ toString width ++ "x" ++
      toString height ++ " matrix"

def StateFault.message : StateFault → String
  | notPositioned => "The boundary scanner is not positioned yet"
  | noSteps => "The boundary scanner did not perform any steps yet"

namespace ContextFault

/-- A failure is an error of the context itself. -/
def isInterruption : ContextFault → Bool
  | failure => false
  | cancelled | deadline | countdown => true

def message : ContextFault → String
  | cancelled => "Boundary scan cancelled"
  | deadline => "Boundary scan deadline exceeded"
  | countdown => "countdown"
  | failure => "the context failed"

end ContextFault

def Misuse.message : Misuse → String
  | raggedNesting => "the nested lists are not of one shape"
  | oddCoordinateCount => "the number of coordinates is odd"
  | notANumber => "a number was expected"
  | unknownPolicy => "there is no such outside policy"
  | ambiguousTruth => "the element is not a single truth value"
  | incomparable => "the values cannot be compared"
  | unknownSetting => "there is no such setting"
  | settingsKind => "settings must be a mapping"
  | argumentsKind => "settings must be given by their names"
  | noVertex => "the pixel vertex is not a corner of the pixel"
  | readOnly => "the setting of a wrapped scanner cannot be changed"
  | noParent => "the scanner has no parent"
  | noObject => "there is no object of this name"
  | wrongObject => "the object has no such operation"
  | noElement => "there is no such element"
  | noTransition => "no step leads from the one side to the other"
  | tooLarge => "the number is too large"
  | tooManyDigits => "an integer in the message has too many digits"
  | unfitElement => "the value does not fit among the elements"
  | tooManyBuffers => "the mode takes fewer buffers"
  | unsupportedShape => "there is no array of this shape"

/-- The values that the message quotes can be written. -/
def ArgumentFault.isWritable : ArgumentFault → Bool
  | dimensionCountKind value | connectivityKind value | sideKind value | coordinateKind _ value
  | intervalKind value | lineKind value | lineUnsupported value | lineUnknown value
  | timeoutRange value | setting _ value => value.isWritable
  | dimensionCountRange number | intervalRange number => (Value.int number).isWritable
  | missingMatrix | missingParent | noDimensions | planeExpected _ | bufferShape ..
  | bufferAccess _ => true

def BoundsFault.isWritable : BoundsFault → Bool
  | coordinateBelow _ value | coordinateAbove _ value _ => (Value.int value).isWritable
  | elementOutside x y _ _ => x.isWritable && y.isWritable

namespace Fault

def message : Fault → String
  | argument cause => cause.message
  | bounds cause => cause.message
  | state cause => cause.message
  | context cause => cause.message
  | misuse cause => cause.message
  | endless => "the walk does not return to its start"

/-- The fault that is announced when this one has occurred. -/
def announced : Fault → Fault
  | argument cause => if cause.isWritable then argument cause else misuse .tooManyDigits
  | bounds cause => if cause.isWritable then bounds cause else misuse .tooManyDigits
  | fault => fault

end Fault

end ContourTracing
