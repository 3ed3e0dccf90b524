import ContourTracing.Interval
import ContourTracing.Text.Blank
import ContourTracing.Text.LetterCase

/-!
# Settings of a tracer

The settings under which a tracer is made and scans its boundaries. They are read from values by
name, every missing one having a default, and can be written as values again. Words are
recognised in any letter case.
-/

namespace ContourTracing

structure Settings where
  connectivity : Connectivity
  mode : ScanMode
  policy : OutsidePolicy
  line : ContourLine
  interval : Nat
deriving DecidableEq, Repr

/-- The style with the given name, blanks at both ends left out. -/
def ContourLine.ofName (value : Value) : Except Fault ContourLine :=
  let unknown := Except.error (.argument (.lineUnknown value))
  match value with
  | .text name =>
    let label := String.ofList (Text.upper (Text.strip name.toList))
    match all.find? (·.label == label) with
    | some line => .ok line
    | none => unknown
  | _ => unknown

namespace Settings

/-- The member whose word a text is. -/
def ofWord? {α : Type} (members : List α) (word : α → String) (value : Value) : Option α :=
  match value with
  | .text text =>
    let lowered := String.ofList (Text.lower text.toList)
    members.find? (word · == lowered)
  | _ => none

/-- The member that a value is or names by its word. -/
def choice {α : Type} (name : String) (member? : Value → Option α) (members : List α)
    (word : α → String) (value : Value) : Except Fault α :=
  match (member? value).or (ofWord? members word value) with
  | some member => .ok member
  | none => .error (.argument (.setting name value))

def lineOf (value : Value) : Except Fault ContourLine :=
  match value with
  | .text _ => ContourLine.ofName value
  | _ =>
    match value.line? with
    | some line => .ok line
    | none => .error (.argument (.lineKind value))

/-- The settings that five values give; the first bad one in this order is the fault. -/
def readValues (connectivity mode policy line interval : Value) : Except Fault Settings := do
  let connectivity ←
    choice "connectivity" Value.connectivity? Connectivity.all Connectivity.word connectivity
  let mode ← choice "mode" Value.mode? ScanMode.members ScanMode.word mode
  let policy ← choice "outside_policy" Value.policy? OutsidePolicy.all OutsidePolicy.word policy
  let line ← lineOf line
  let interval ← Interval.ofValue interval
  return { connectivity, mode, policy, line, interval }

/-- The settings that five values give, or the fault as it is announced. -/
def ofValues (connectivity mode policy line interval : Value) : Except Fault Settings :=
  (readValues connectivity mode policy line interval).mapError Fault.announced

def standard : Settings where
  connectivity := .diagonal
  mode := .all
  policy := .background
  line := .corners
  interval := 1

def names : List String :=
  ["connectivity", "mode", "outside_policy", "contour_line_type", "check_interval"]

/-- The settings of a record; other fields are of no concern. -/
def ofFields (fields : List (String × Value)) : Except Fault Settings :=
  let get name default := (Value.lookup name fields).getD default
  ofValues (get "connectivity" (.member (.connectivity standard.connectivity)))
    (get "mode" (.member (.mode standard.mode)))
    (get "outside_policy" (.member (.policy standard.policy)))
    (get "contour_line_type" (.member (.line standard.line)))
    (get "check_interval" (.int standard.interval))

/-- The settings of a value that has to be a record. -/
def ofValue : Value → Except Fault Settings
  | .record fields => ofFields fields
  | _ => .error (.misuse .settingsKind)

/-- The settings that are given one by one, with no other names among them. -/
def ofArguments : Value → Except Fault Settings
  | .record fields =>
    if fields.all fun field ↦ names.contains field.1 then ofFields fields
    else .error (.misuse .unknownSetting)
  | _ => .error (.misuse .argumentsKind)

/-- The settings of a document, given how its value is read: of its `scanner` section, if it has
one, or else of the document itself. An empty document has no settings. -/
def ofDocument {Document : Type} (read : Document → Value) (document : Document) :
    Except Fault Settings :=
  let value := read document
  if value.isEmpty then ofFields []
  else
    match value with
    | .record fields => ofValue ((Value.lookup "scanner" fields).getD value)
    | _ => .error (.misuse .settingsKind)

/-- The settings as a record of words. -/
def toFields (settings : Settings) : List (String × Value) :=
  [("connectivity", .text settings.connectivity.word), ("mode", .text settings.mode.word),
    ("outside_policy", .text settings.policy.word),
    ("contour_line_type", .text settings.line.word), ("check_interval", .int settings.interval)]

def toValue (settings : Settings) : Value :=
  .record settings.toFields

end Settings

end ContourTracing
