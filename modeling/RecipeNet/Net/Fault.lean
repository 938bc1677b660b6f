import RecipeNet.Net.TokenId
import RecipeNet.Plan.Integrity

/-!
What can go wrong with a net: unsound plans, tokens that are not where they
should be, steps that fail, requests that do not suit the state, snapshots that
do not fit, and files that cannot be read.
-/

namespace RecipeNet

inductive Status where
  | created
  | running
  | paused
  | completed
  | halted
  | disposed
deriving DecidableEq, Repr, Inhabited

def Status.text : Status → String
  | .created => "created"
  | .running => "running"
  | .paused => "paused"
  | .completed => "completed"
  | .halted => "halted"
  | .disposed => "disposed"

inductive Request where
  | start
  | complete
  | pause
  | restore
  | resume
deriving DecidableEq, Repr

def Request.text : Request → String
  | .start => "start"
  | .complete => "complete an activity on"
  | .pause => "pause"
  | .restore => "restore"
  | .resume => "resume"

inductive Surprise where
  | notSplit
  | noSlot (slots input : Nat)
  | taken (input : Nat) (sibling parent : TokenId)
deriving DecidableEq, Repr

def Surprise.message : Surprise → String
  | .notSplit => "join inputs only accept split tokens"
  | .noSlot slots input =>
    "join buffers " ++ toString slots ++ " inputs, not input " ++ toString input
  | .taken input sibling parent =>
    "input " ++ toString input ++ " already holds sibling " ++ sibling.text ++ " of original " ++
      parent.text

inductive Failure where
  /-- Its own routing gave a reason. -/
  | refused (reason : String)
  | routedOutside (output available : Nat)
deriving DecidableEq, Repr

def Failure.message : Failure → String
  | .refused reason => reason
  | .routedOutside output available =>
    "routed to output " ++ toString output ++ " of " ++ toString available

inductive Mismatch where
  | otherPlan (id : String)
  | otherVersion (captured running : UInt32)
  | planChanged
  | cyclic (token : TokenId)
  | missing (token : TokenId)
  | heldTwice (token : TokenId)
  | unknownPlace (id : String)
  | unknownStep (id : String)
  | joinWidth (step : String) (inputs slots : Nat)
  | otherKind (step kind : String)
deriving DecidableEq, Repr

def Mismatch.message : Mismatch → String
  | .otherPlan id => "captured from workplan '" ++ id ++ "'"
  | .otherVersion captured running =>
    "captured from version " ++ toString captured.toNat ++ ", engine runs version " ++
      toString running.toNat
  | .planChanged => "workplan definition changed since capture"
  | .cyclic token => "token " ++ token.text ++ " has a cyclic original chain"
  | .missing token => "token " ++ token.text ++ " is missing from the token table"
  | .heldTwice token => "token " ++ token.text ++ " is held more than once"
  | .unknownPlace id => "unknown place '" ++ id ++ "'"
  | .unknownStep id => "unknown step '" ++ id ++ "'"
  | .joinWidth step inputs slots =>
    "join '" ++ step ++ "' has " ++ toString inputs ++ " inputs but the snapshot buffers " ++
      toString slots
  | .otherKind step kind =>
    "step '" ++ step ++ "' is a " ++ kind ++ " transition and cannot take the captured state"

inductive Fault where
  | unsoundPlan (plan : String) (flaws : List Flaw)
  | unknownPlace (id : String)
  | unknownStep (id : String)
  | tokenNotHeld (place : String) (token : TokenId)
  | unexpectedToken (step : String) (token : TokenId) (reason : Surprise)
  | noSuchOutput (step : String) (index available : Nat)
  | transitionFailed (step : String) (reason : Failure)
  | unmappedTerminal (step place : String)
  | notAwaiting (step : String) (token : TokenId)
  | wrongState (request : Request) (status : Status)
  | snapshotMismatch (plan : String) (reason : Mismatch)
  /-- A file could not be read or written. -/
  | file (detail : String)
  /-- A document is no snapshot or plan. -/
  | document (detail : String)
  /-- A sheet is no plan. -/
  | sheet (detail : String)
deriving DecidableEq, Repr

namespace Fault

def flawLines : List Flaw → String
  | [] => ""
  | [flaw] => "  - " ++ flaw.message
  | flaw :: next :: rest => "  - " ++ flaw.message ++ "\n" ++ flawLines (next :: rest)

def message : Fault → String
  | .unsoundPlan plan flaws => "workplan '" ++ plan ++ "' is invalid:\n" ++ flawLines flaws
  | .unknownPlace id => "place '" ++ id ++ "' is not part of the workplan"
  | .unknownStep id => "step '" ++ id ++ "' is not part of the workplan"
  | .tokenNotHeld place token => "token " ++ token.text ++ " is not held by place '" ++ place ++ "'"
  | .unexpectedToken step token reason =>
    "transition '" ++ step ++ "' received unexpected token " ++ token.text ++ ": " ++ reason.message
  | .noSuchOutput step index available =>
    "transition '" ++ step ++ "' has no output " ++ toString index ++ " (" ++ toString available ++
      " outputs)"
  | .transitionFailed step reason => "transition '" ++ step ++ "' failed: " ++ reason.message
  | .unmappedTerminal step place =>
    "sub-workflow '" ++ step ++ "' cannot map terminal place '" ++ place ++ "' to an output"
  | .notAwaiting step token =>
    "transition '" ++ step ++ "' is not waiting on token " ++ token.text
  | .wrongState request status =>
    "cannot " ++ request.text ++ " an engine that is " ++ status.text
  | .snapshotMismatch plan reason =>
    "snapshot does not match workplan '" ++ plan ++ "': " ++ reason.message
  | .file detail => "I/O error: " ++ detail
  | .document detail => "JSON error: " ++ detail
  | .sheet detail => "YAML error: " ++ detail

/-- Whether a net cannot go on after a fault. Mistakes of the caller are found
before anything has changed and do no harm. -/
def halts : Fault → Bool
  | .unknownStep _ | .unknownPlace _ | .noSuchOutput _ _ _ | .notAwaiting _ _ | .wrongState _ _ => false
  | _ => true

end Fault

def Plan.validate (p : Plan) : Except Fault Unit :=
  match p.flaws with
  | [] => .ok ()
  | flaws => .error (.unsoundPlan p.id flaws)

end RecipeNet
