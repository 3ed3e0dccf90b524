import ContourTracing.Connectivity
import ContourTracing.ContourLine
import ContourTracing.Decimal.Shortest
import ContourTracing.OutsidePolicy
import ContourTracing.ScanMode
import ContourTracing.Text.Quoted

/-!
# Argument values

Settings and arguments may be values of any kind, and a call that refuses one quotes it in its
message. A quoted value shows its kind: text stands between quotation marks and a member of an
enumeration names its enumeration. A displayed value is the same except that text and members
stand alone. Integers are written with a limited number of digits, so that not every value can be
quoted.
-/

namespace ContourTracing

/-- A member of one of the enumerations of the library. -/
inductive Member where
  | side (side : Side)
  | connectivity (connectivity : Connectivity)
  | line (line : ContourLine)
  | policy (policy : OutsidePolicy)
  | mode (mode : ScanMode)
deriving DecidableEq, Repr

namespace Member

def enumeration : Member → String
  | side _ => "Side"
  | connectivity _ => "ConnectivityType"
  | line _ => "ContourLineType"
  | policy _ => "OutsidePolicy"
  | mode _ => "ScanMode"

def label : Member → String
  | side s => s.label
  | connectivity c => c.label
  | line l => l.label
  | policy p => p.label
  | mode m => m.label

/-- The code of a member, or the quoted word that stands for it. -/
def content : Member → String
  | side s => toString s.code
  | line l => toString l.code
  | connectivity c => Text.quoted c.word
  | policy p => Text.quoted p.word
  | mode m => Text.quoted m.word

def all : List Member :=
  Side.all.map side ++ Connectivity.all.map connectivity ++ ContourLine.all.map line ++
    OutsidePolicy.all.map policy ++ ScanMode.members.map mode

def displayed (member : Member) : String :=
  member.enumeration ++ "." ++ member.label

def quoted (member : Member) : String :=
  "<" ++ member.displayed ++ ": " ++ member.content ++ ">"

/-- The member with the given label of the given enumeration. -/
def named? (enumeration label : String) : Option Member :=
  all.find? fun member ↦ member.enumeration == enumeration && member.label == label

end Member

inductive Value where
  | null
  | bool (value : Bool)
  | int (value : Int)
  | float (value : Float)
  | text (value : String)
  | list (items : List Value)
  | record (fields : List (String × Value))
  | member (member : Member)
deriving Inhabited

namespace Value

mutual

def quoted : Value → String
  | null => "None"
  | bool true => "True"
  | bool false => "False"
  | int value => toString value
  | float value => Decimal.shortestText value
  | text value => Text.quoted value
  | list items => "[" ++ ", ".intercalate (quotedItems items) ++ "]"
  | record fields => "\x7b" ++ ", ".intercalate (quotedFields fields) ++ "\x7d"
  | member m => m.quoted

def quotedItems : List Value → List String
  | [] => []
  | item :: items => item.quoted :: quotedItems items

def quotedFields : List (String × Value) → List String
  | [] => []
  | (key, value) :: fields => (Text.quoted key ++ ": " ++ value.quoted) :: quotedFields fields

end

/-- The most digits that an integer can be written with. -/
def digitLimit : Nat := 4300

mutual

/-- No integer in the value has too many digits to be written. -/
def isWritable : Value → Bool
  | int value => value.natAbs < Nat.pow 10 digitLimit
  | list items => areWritableItems items
  | record fields => areWritableFields fields
  | null | bool _ | float _ | text _ | member _ => true

def areWritableItems : List Value → Bool
  | [] => true
  | item :: items => item.isWritable && areWritableItems items

def areWritableFields : List (String × Value) → Bool
  | [] => true
  | (_, value) :: fields => value.isWritable && areWritableFields fields

end

def displayed : Value → String
  | text value => value
  | member m => m.displayed
  | value => value.quoted

/-- The name of the kind of a value. -/
def kind : Value → String
  | null => "NoneType"
  | bool _ => "bool"
  | int _ => "int"
  | float _ => "float"
  | text _ => "str"
  | list _ => "list"
  | record _ => "dict"
  | member m => m.enumeration

/-- Zero, empty and absent values. -/
def isEmpty : Value → Bool
  | null => true
  | bool value => !value
  | int value => value == 0
  | float value => value == 0
  | text value => value.isEmpty
  | list items => items.isEmpty
  | record fields => fields.isEmpty
  | member _ => false

/-- An integer; truth values are not integers. -/
def int? : Value → Option Int
  | int value => some value
  | _ => none

def side? : Value → Option Side
  | member (.side side) => some side
  | _ => none

def connectivity? : Value → Option Connectivity
  | member (.connectivity connectivity) => some connectivity
  | _ => none

def line? : Value → Option ContourLine
  | member (.line line) => some line
  | _ => none

def policy? : Value → Option OutsidePolicy
  | member (.policy policy) => some policy
  | _ => none

def mode? : Value → Option ScanMode
  | member (.mode mode) => some mode
  | _ => none

/-- The field of the given name. -/
def lookup (name : String) (fields : List (String × Value)) : Option Value :=
  (fields.find? fun field ↦ field.1 == name).map (·.2)

end Value

end ContourTracing
