import RecipeNet.CommandLine.Options
import RecipeNet.Net.Cascade
import RecipeNet.Snapshot.Capture
import RecipeNet.Timeline

/-!
Sessions: a net that is driven without a world outside of it. Each activity
finishes as soon as it is its turn and chooses the output that the options give
it, until the run ends, is due to pause, or nothing is left to finish.
-/

namespace RecipeNet.CommandLine

structure Activity where
  step : Address
  name : String
  token : TokenId
deriving DecidableEq, Repr

def Activity.ofEvent? : Event → Option Activity
  | .started step name token => some ⟨step, name, token.id⟩
  | .fired _ | .completed _ _ => none

structure Session where
  options : Options
  engine : Engine
  supply : Supply
  timeline : Timeline := {}
  /-- Activities that have begun, first come first served. -/
  activities : List Activity := []
  /-- What has been reported but not shown yet. -/
  fresh : List Event := []

def eventLine : Event → String
  | .fired step => "  fired " ++ step.text ++ "\n"
  | .started step activity token =>
    "  activity '" ++ activity ++ "' at " ++ step.text ++ " for token " ++ token.id.text ++ "\n"
  | .completed place token =>
    "  completed at '" ++ place ++ "' with token " ++ token.id.text ++ "\n"

inductive Move where
  /-- An activity has finished. -/
  | on (s : Session)
  /-- The net has paused and its snapshot is to be kept. -/
  | pause (s : Session) (snapshot : Snapshot)
  | stop (s : Session)
  | fail (f : Fault)

namespace Session

def shown (s : Session) : String :=
  String.join (s.fresh.map eventLine)

def settle (s : Session) (time : Option Nat) : Session :=
  { s with
    timeline := s.timeline.recordAll time s.fresh
    activities := s.activities ++ s.fresh.filterMap Activity.ofEvent?
    fresh := [] }

def isDue (s : Session) : Bool :=
  s.options.pauseAfter.any (· ≤ s.timeline.triggered) && s.engine.status = .running

def finish (fuel : Nat) (s : Session) (activity : Activity) (rest : List Activity) : Option Move :=
  let output := s.options.resultFor activity.name
  (s.engine.complete fuel activity.step.path activity.token output s.supply).map fun run =>
    match run.result with
    | .error f => .fail f
    | .ok () =>
      .on { s with engine := run.engine, supply := run.supply, activities := rest, fresh := run.events }

def next (fuel : Nat) (now : Timestamp) (s : Session) : Option Move :=
  if s.isDue then
    match s.engine.pause now with
    | (engine, .ok snapshot) => some (.pause { s with engine } snapshot)
    | (_, .error f) => some (.fail f)
  else if s.engine.status ≠ .running then some (.stop s)
  else
    match s.activities with
    | [] => some (.stop s)
    | activity :: rest => s.finish fuel activity rest

def pausedLine (s : Session) (path : String) : String :=
  "\nPaused after " ++ toString s.timeline.triggered ++ " firings, snapshot written to " ++ path ++ "\n"

def doneLine (s : Session) : String :=
  match s.engine.completion with
  | some (place, token) => "Done at '" ++ place ++ "' with token " ++ token.text ++ "\n"
  | none => ""

def complaint? (s : Session) : Option String :=
  match s.engine.status with
  | .completed | .paused => none
  | .halted => some ("Workplan halted: " ++ s.engine.haltReason.getD "")
  | status => some ("Workplan stopped while " ++ status.text)

end Session
end RecipeNet.CommandLine
