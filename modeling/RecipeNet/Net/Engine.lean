import RecipeNet.Net.Join
import RecipeNet.Plan.Document

/-!
Live nets: the places of a plan with their tokens, and for each step a
transition with what it has taken in. A step with a nested plan holds a whole
net while that plan runs, so nets are trees.
-/

namespace RecipeNet

inductive Fitting where
  | pass (output : Nat)
  | split
  | join (inputs : Nat)
  | task (activity : String)
  /-- Routing by a rule that sees the tokens routed before and the one to
  route. -/
  | routed (rule : List Token → Token → Except String Nat)
  /-- A nested plan, whose steps are fitted like those of the net itself. -/
  | nested (plan : Plan) (outputs : OutputMap)
  /-- A nested plan with fittings of its own. -/
  | nestedWith (plan : Plan) (outputs : OutputMap) (inner : StepSpec → Except Fault Fitting)

abbrev Fitter := StepSpec → Except Fault Fitting

def Fitting.standard (step : StepSpec) : Fitting :=
  match step.kind with
  | .pass output => .pass output.toNat
  | .split => .split
  | .join => .join step.inputs.length
  | .task activity => .task activity
  | .nested plan results => .nested plan (.of plan results)

def Fitter.standard : Fitter := fun step => .ok (.standard step)

structure Nest where
  plan : Plan
  outputs : OutputMap
  fitter : Fitter

inductive Phase where
  | created
  | initialized
  | active
  | paused
  | disposed
deriving DecidableEq, Repr, Inhabited

namespace Phase

def text : Phase → String
  | .created => "created"
  | .initialized => "initialized"
  | .active => "active"
  | .paused => "paused"
  | .disposed => "disposed"

def activate : Phase → Phase
  | .initialized | .paused => .active
  | p => p

def suspend : Phase → Phase
  | .initialized | .active => .paused
  | p => p

end Phase

mutual
structure Engine where
  plan : Plan
  fingerprint : String
  status : Status
  holdings : List Holding
  slots : List Slot
  /-- The terminal place and the token that ended the run. -/
  completion : Option (String × Token)
  haltedBy : Option Fault

structure Slot where
  step : String
  inputs : List Nat
  outputs : List Nat
  phase : Phase
  transition : Transition

/-- What a step does, and the tokens it has taken in or noted. -/
inductive Transition where
  | pass (output : Nat)
  | split
  | join (inputs : Nat) (pending : List Generation)
  | task (activity : String) (held : List Token)
  | routed (rule : List Token → Token → Except String Nat) (seen : List Token)
  /-- A nested plan that does not run. -/
  | idle (nest : Nest)
  /-- A nested plan that runs for a token. -/
  | busy (nest : Nest) (token : Token) (child : Engine)
end

namespace Transition

def kind : Transition → String
  | .pass _ => "pass"
  | .split => "split"
  | .join _ _ => "join"
  | .task _ _ => "task"
  | .routed _ _ => "custom"
  | .idle _ | .busy _ _ _ => "sub_workflow"

def logText : Transition → String
  | .pass output => "Pass(PassTransition \x7b output: " ++ toString output ++ " \x7d)"
  | .join _ pending => "Join(" ++ toString pending.length ++ ")"
  | t => t.kind

def ofFitting (own : Fitter) : Fitting → Transition
  | .pass output => .pass output
  | .split => .split
  | .join inputs => .join inputs []
  | .task activity => .task activity []
  | .routed rule => .routed rule []
  | .nested plan outputs => .idle ⟨plan, outputs, own⟩
  | .nestedWith plan outputs inner => .idle ⟨plan, outputs, inner⟩

def dispose : Transition → Transition
  | .busy nest _ _ => .idle nest
  | t => t

end Transition

namespace Engine

def placeIndex? (holdings : List Holding) (id : String) : Option Nat :=
  holdings.findIdx? (·.place.id == id)

def placeIndices (holdings : List Holding) : List String → Except Fault (List Nat)
  | [] => .ok []
  | id :: rest =>
    match placeIndex? holdings id with
    | some i => (placeIndices holdings rest).map (i :: ·)
    | none => .error (.unknownPlace id)

def fitSlot (fitter : Fitter) (holdings : List Holding) (step : StepSpec) : Except Fault Slot := do
  let inputs ← placeIndices holdings step.inputs
  let outputs ← placeIndices holdings step.outputs
  let fitting ← fitter step
  .ok ⟨step.id, inputs, outputs, .initialized, .ofFitting fitter fitting⟩

def build (fitter : Fitter) (plan : Plan) : Except Fault Engine := do
  plan.validate
  let holdings := plan.places.map Holding.new
  let slots ← plan.steps.mapM (fitSlot fitter holdings)
  .ok { plan, fingerprint := plan.fingerprint, status := .created, holdings, slots,
        completion := none, haltedBy := none }

def haltReason (e : Engine) : Option String :=
  e.haltedBy.map (·.message)

def tokensOf (e : Engine) (place : String) : Except Fault (List Token) :=
  match e.holdings.find? (·.place.id == place) with
  | some h => .ok h.tokens
  | none => .error (.unknownPlace place)

def slotIndex? (slots : List Slot) (step : String) : Option Nat :=
  slots.findIdx? (·.step == step)

def phaseOf (e : Engine) (step : String) : Except Fault Phase :=
  match e.slots.find? (·.step == step) with
  | some slot => .ok slot.phase
  | none => .error (.unknownStep step)

/-- A token that has come into the place behind an input of a step. -/
structure Notice where
  slot : Nat
  input : Nat
  token : Token

def consumers (e : Engine) (place : Nat) : List (Nat × Nat) :=
  e.slots.zipIdx.flatMap fun (slot, i) =>
    (slot.inputs.zipIdx.filter (·.1 == place)).map fun (_, input) => (i, input)

def notices (e : Engine) (place : Nat) (t : Token) : List Notice :=
  (e.consumers place).map fun (slot, input) => ⟨slot, input, t⟩

/-- Takes note of a token that has come into a place: the first one in a
terminal place ends the run. -/
def accept (e : Engine) (place : Nat) (t : Token) : Engine × List Event :=
  match e.holdings[place]? with
  | some h =>
    if h.isTerminal && e.status = .running then
      ({ e with status := .completed, completion := some (h.place.id, t) }, [.completed h.place.id t])
    else (e, [])
  | none => (e, [])

def acceptAll (e : Engine) : List (Nat × Token) → Engine × List Notice × List Event
  | [] => (e, [], [])
  | (place, t) :: rest =>
    let (e, events) := e.accept place t
    let (e', notices, more) := e.acceptAll rest
    (e', e.notices place t ++ notices, events ++ more)

/-- The net after a fault: one that cannot go on halts. -/
def halt (e : Engine) (f : Fault) : Engine :=
  if f.halts then
    { e with
      status := if e.status = .running ∨ e.status = .paused then .halted else e.status
      haltedBy := some f }
  else e

def dispose (e : Engine) : Engine :=
  { e with
    status := .disposed
    slots := e.slots.map fun slot => { slot with phase := .disposed, transition := slot.transition.dispose } }

def activate (e : Engine) : Engine :=
  { e with slots := e.slots.map fun slot => { slot with phase := slot.phase.activate } }

def suspend (e : Engine) : Engine :=
  { e with slots := e.slots.map fun slot => { slot with phase := slot.phase.suspend } }

def held (e : Engine) : List (Nat × Token) :=
  e.holdings.zipIdx.flatMap fun (h, place) => h.tokens.map (place, ·)

def enter (e : Engine) (t : Token) : Except Fault (Engine × List Notice × List Event) :=
  if e.status = .created then
    let start := (e.holdings.findIdx? (·.place.role == .start)).getD 0
    let e := { e.activate with
      status := .running, holdings := e.holdings.modify start (·.add t) }
    .ok (e.acceptAll [(start, t)])
  else .error (.wrongState .start e.status)

end Engine
end RecipeNet
