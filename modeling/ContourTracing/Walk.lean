import ContourTracing.Connectivity
import ContourTracing.Mask

/-!
# The boundary walk

From every position the walk has exactly one next step, chosen from two pixels only: the one
ahead and the one across from it. With corners connected the diagonal pixel is taken whenever it
is set. With sides connected it is taken only through a set pixel ahead, since otherwise it may
belong to another object.
-/

namespace ContourTracing.Mask

def chooseTurn (mask : Mask) (connectivity : Connectivity) (position : Position) : Turn :=
  let ahead := mask.isSet position.ahead.1 position.ahead.2
  let across := mask.isSet position.aheadAcross.1 position.aheadAcross.2
  match connectivity with
  | .straight => if ahead then if across then .diagonal else .straight else .rotation
  | .diagonal => if across then .diagonal else if ahead then .straight else .rotation

def chooseStep (mask : Mask) (connectivity : Connectivity) (position : Position) : Step :=
  position.side.step (mask.chooseTurn connectivity position)

def successor (mask : Mask) (connectivity : Connectivity) (position : Position) : Position :=
  position.move (mask.chooseStep connectivity position)

/-- A set pixel and an unset or outer pixel meet at the position. -/
def IsBoundary (mask : Mask) (position : Position) : Prop :=
  mask.isSet position.x position.y = true ∧
    mask.isSet position.across.1 position.across.2 = false

instance (mask : Mask) (position : Position) : Decidable (mask.IsBoundary position) :=
  inferInstanceAs (Decidable (_ ∧ _))

end ContourTracing.Mask
