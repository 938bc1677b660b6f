import RecipeNet.Snapshot.Basic
import RecipeNet.Text.Digits

/-!
Arguments of the command line. They are taken in order, and the first mistake
or request for help decides.
-/

namespace RecipeNet.CommandLine

structure Options where
  planPath : String := "workplan.yaml"
  snapshotFile : Option String := none
  /-- Whether to go on from a snapshot. -/
  resume : Bool := false
  /-- The number of firings after which to pause. -/
  pauseAfter : Option Nat := none
  /-- The outputs chosen for activities, the latest choice first. -/
  results : List (String × Nat) := []
  verbose : Bool := false
deriving DecidableEq, Repr

namespace Options

def snapshotPath (o : Options) : String :=
  o.snapshotFile.getD (Snapshot.defaultPath o.planPath)

def resultFor (o : Options) (activity : String) : Nat :=
  (o.results.lookup activity).getD 0

end Options

inductive Mistake where
  | noSnapshotPath
  | noCount
  | noResult
  | badCount (text : String)
  | badResult (text : String)
  | badOutput (activity text : String)
  | unknownOption (text : String)
  | unexpected (text : String)
deriving DecidableEq, Repr

def Mistake.message : Mistake → String
  | .noSnapshotPath => "--snapshot requires a path argument"
  | .noCount => "--pause-after requires a number argument"
  | .noResult => "--result requires an ACTIVITY=INDEX argument"
  | .badCount text => "Invalid pause-after value: " ++ text
  | .badResult text => "Invalid result mapping: " ++ text
  | .badOutput activity text => "Invalid output index for '" ++ activity ++ "': " ++ text
  | .unknownOption text => "Unknown option: " ++ text
  | .unexpected text => "Unexpected argument: " ++ text

inductive Invocation where
  | help
  | version
  | run (options : Options)
  | wrong (mistake : Mistake)
deriving DecidableEq, Repr

def count? (s : List Char) : Option Nat :=
  Text.boundedNat? (Nat.pow 2 64) s

/-- The choice of an output for an activity. Blanks around both do not
count. -/
def result (arg : String) : Except Mistake (String × Nat) :=
  let activity := arg.toList.takeWhile (· ≠ '=')
  match arg.toList.drop activity.length with
  | [] => .error (.badResult arg)
  | _ :: output =>
    match count? (Text.trimChars output) with
    | none => .error (.badOutput (String.ofList activity) (String.ofList output))
    | some n => .ok (String.ofList (Text.trimChars activity), n)

namespace Invocation

/-- What the remaining arguments ask for; `named` says that the plan has been
named already. -/
def parse (o : Options) (named : Bool) : List String → Invocation
  | [] => .run o
  | "--help" :: _ | "-h" :: _ => .help
  | "--version" :: _ | "-V" :: _ => .version
  | "--resume" :: rest => parse { o with resume := true } named rest
  | "--verbose" :: rest | "-v" :: rest => parse { o with verbose := true } named rest
  | "--snapshot" :: path :: rest => parse { o with snapshotFile := some path } named rest
  | ["--snapshot"] => .wrong .noSnapshotPath
  | "--pause-after" :: text :: rest =>
    match count? text.toList with
    | some n => parse { o with pauseAfter := some n } named rest
    | none => .wrong (.badCount text)
  | ["--pause-after"] => .wrong .noCount
  | "--result" :: text :: rest =>
    match result text with
    | .ok choice => parse { o with results := choice :: o.results } named rest
    | .error mistake => .wrong mistake
  | ["--result"] => .wrong .noResult
  | arg :: rest =>
    if arg.toList.head? = some '-' then .wrong (.unknownOption arg)
    else if named then .wrong (.unexpected arg)
    else parse { o with planPath := arg } true rest

def ofArgs (args : List String) : Invocation :=
  parse {} false args

end Invocation

def appName : String := "Workplan"

def version : String := "0.1.0"

def usageLines : List String :=
  ["Usage: workplan [OPTIONS] <WORKPLAN_FILE>",
    "",
    "Arguments:",
    "  <WORKPLAN_FILE>          Path to workplan YAML file",
    "",
    "Options:",
    "  --resume                 Continue from the saved snapshot",
    "  --snapshot PATH          Snapshot file (default: .workplan/<name>.snapshot.json)",
    "  --pause-after N          Pause after N firings and save a snapshot",
    "  --result ACTIVITY=INDEX  Output chosen when ACTIVITY finishes (default: 0)",
    "  --verbose                Enable debug logging",
    "  --help                   Show this help message",
    "  --version                Show version information",
    "",
    "Examples:",
    "  workplan housing.yaml",
    "  workplan housing.yaml --result inspect=1",
    "  workplan housing.yaml --pause-after 3 && workplan housing.yaml --resume"]

def usage : String :=
  String.join (usageLines.map (· ++ "\n"))

def banner : String :=
  "\n" ++ appName ++ " v" ++ version ++ "\nPetri-Net Workplan Execution Engine\n\n"

end RecipeNet.CommandLine
