import ContourTracing.GivenPoints
import ContourTracing.Operation

/-!
# Surveys

A survey visits one boundary after the other, follows each in one of three ways, and reports
where the boundary began, what was found on the way, and the measurements afterwards. A walk may
be cut short after a number of steps.
-/

namespace ContourTracing

/-- Boundaries are followed step by step, scanned, or traced with a style of contour line. -/
inductive Following where
  | steps
  | scan
  | trace (line : ContourLine)

/-- `cuts` are the numbers of steps after which the walks are cut short, in turn; a negative
number follows the whole boundary, with at most `limit` steps or checks. -/
structure SurveyPlan where
  following : Following
  cuts : List Int
  limit : Int
  most : Nat

inductive Course where
  | steps (codes : List Int)
  | scanned (result : Except Fault Nat) (warnings : List String)
  | traced (result : Except Fault (List Point))

structure BoundaryReport where
  start : Position
  level : Int
  isInternal : Bool
  course : Course
  status : Status
  areas : List Rat
  lengths : List Length

namespace Stack

/-- Makes up to so many steps and lists the codes of the last step after each. -/
def followSteps : Nat → Stack → Except Fault (List Int) × Stack
  | 0, stack => (.ok [], stack)
  | most + 1, stack =>
    if stack.isFinished then (.ok [], stack)
    else
      match stack.next with
      | .error fault => (.error fault, stack)
      | .ok stack =>
        let code := (stack.tracer.lastStep?.map (·.code)).getD 0
        let (codes, stack) := followSteps most stack
        (codes.map (code :: ·), stack)

/-- Follows the boundary at which the stack has been put. -/
def follow (stack : Stack) (plan : SurveyPlan) (cut : Int) : Except Fault Course × Stack :=
  let stepwise (most : Nat) :=
    let (codes, stack) := stack.followSteps most
    (codes.map Course.steps, stack)
  if 0 ≤ cut then stepwise cut.toNat
  else
    let context := Context.countdown plan.limit .countdown
    match plan.following with
    | .steps => stepwise plan.limit.toNat
    | .scan =>
      let run := stack.scan context stack.tracer.interval
      (.ok (.scanned run.result run.warnings), run.stack)
    | .trace line =>
      let run := stack.trace (.member (.line line)) context stack.tracer.interval
      (.ok (.traced run.result), run.stack)

def boundaryReport (start : Position) (level : Int) (course : Course) (stack : Stack) :
    BoundaryReport where
  start := start
  level := level
  isInternal := start.side == .right
  course := course
  status := stack.status
  areas := ContourLine.all.map stack.tracer.tally.areaOn
  lengths := ContourLine.all.map stack.tracer.tally.lengthOn

/-- Visits up to so many boundaries after the `done` boundaries visited before. -/
def surveyFrom (plan : SurveyPlan) :
    Nat → Nat → Stack → Except Fault (List BoundaryReport × Stack)
  | 0, _, stack => .ok ([], stack)
  | most + 1, done, stack =>
    match stack.nextBoundary with
    | (false, stack) => .ok ([], stack)
    | (true, stack) => do
      let start ← stack.tracer.position
      let level := stack.tracer.memory.level
      let cut := plan.cuts.getD (done % plan.cuts.length) (-1)
      let (course, stack) := stack.follow plan cut
      let report := stack.boundaryReport start level (← course)
      let (reports, stack) ← surveyFrom plan most (done + 1) stack
      return (report :: reports, stack)

def survey (stack : Stack) (plan : SurveyPlan) : Except Fault (List BoundaryReport × Stack) :=
  stack.surveyFrom plan plan.most 0

end Stack

end ContourTracing
