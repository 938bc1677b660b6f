import RecipeNet.Plan.ResultMap
import RecipeNet.Text.Blank

/-!
Plans: the fixed definition of a net. A plan lists places and steps; a step
takes work from its input places to its output places in the way its kind says,
and may hold a whole plan of its own.
-/

namespace RecipeNet

inductive Role where
  | normal
  /-- Receives the work item. -/
  | start
  /-- Holds a result; a token here ends the run. -/
  | terminal
deriving DecidableEq, Repr, Inhabited

structure PlaceSpec where
  id : String
  role : Role := .normal
  /-- The name of the result that a terminal place stands for. -/
  label : Option String := none
deriving DecidableEq, Repr, Inhabited

mutual
structure Plan where
  id : String
  version : UInt32
  places : List PlaceSpec
  steps : List StepSpec

/-- A step with its connectors, of which output 0 is the main path. -/
structure StepSpec where
  id : String
  name : Option String
  inputs : List String
  outputs : List String
  kind : StepKind

inductive StepKind where
  /-- Hands a token on to one output. -/
  | pass (output : UInt64)
  /-- Makes one sibling of a token for each output. -/
  | split
  /-- Makes the siblings of one token into that token again. -/
  | join
  /-- Runs a nested plan; `results` say which output each of its results goes
  to, by terminal place or by label. -/
  | nested (plan : Plan) (results : ResultMap)
  /-- Waits for an activity outside the net. -/
  | task (activity : String)
end

instance : Inhabited Plan := ⟨⟨"", 1, [], []⟩⟩
instance : Inhabited StepKind := ⟨.split⟩
instance : Inhabited StepSpec := ⟨⟨"", none, [], [], .split⟩⟩

mutual
def Plan.decEq : (a b : Plan) → Decidable (a = b)
  | ⟨id, version, places, steps⟩, ⟨id', version', places', steps'⟩ =>
    if h : id = id' ∧ version = version' ∧ places = places' then
      match StepSpec.decEqList steps steps' with
      | isTrue hs => isTrue (by obtain ⟨rfl, rfl, rfl⟩ := h; rw [hs])
      | isFalse hs => isFalse fun e => hs (by cases e; rfl)
    else isFalse fun e => h (by cases e; exact ⟨rfl, rfl, rfl⟩)

def StepSpec.decEqList : (a b : List StepSpec) → Decidable (a = b)
  | [], [] => isTrue rfl
  | [], _ :: _ => isFalse (by intro e; cases e)
  | _ :: _, [] => isFalse (by intro e; cases e)
  | a :: as, b :: bs =>
    match StepSpec.decEq a b, StepSpec.decEqList as bs with
    | isTrue h, isTrue hs => isTrue (by rw [h, hs])
    | isFalse h, _ => isFalse fun e => h (by cases e; rfl)
    | _, isFalse hs => isFalse fun e => hs (by cases e; rfl)

def StepSpec.decEq : (a b : StepSpec) → Decidable (a = b)
  | ⟨id, name, inputs, outputs, kind⟩, ⟨id', name', inputs', outputs', kind'⟩ =>
    if h : id = id' ∧ name = name' ∧ inputs = inputs' ∧ outputs = outputs' then
      match StepKind.decEq kind kind' with
      | isTrue hk => isTrue (by obtain ⟨rfl, rfl, rfl, rfl⟩ := h; rw [hk])
      | isFalse hk => isFalse fun e => hk (by cases e; rfl)
    else isFalse fun e => h (by cases e; exact ⟨rfl, rfl, rfl, rfl⟩)

def StepKind.decEq : (a b : StepKind) → Decidable (a = b)
  | .pass m, .pass n => if h : m = n then isTrue (h ▸ rfl) else isFalse fun e => h (by cases e; rfl)
  | .split, .split => isTrue rfl
  | .join, .join => isTrue rfl
  | .task s, .task t => if h : s = t then isTrue (h ▸ rfl) else isFalse fun e => h (by cases e; rfl)
  | .nested p r, .nested q s =>
    if h : r = s then
      match Plan.decEq p q with
      | isTrue hp => isTrue (by rw [hp, h])
      | isFalse hp => isFalse fun e => hp (by cases e; rfl)
    else isFalse fun e => h (by cases e; rfl)
  | .pass _, .split | .pass _, .join | .pass _, .task _ | .pass _, .nested _ _
  | .split, .pass _ | .split, .join | .split, .task _ | .split, .nested _ _
  | .join, .pass _ | .join, .split | .join, .task _ | .join, .nested _ _
  | .task _, .pass _ | .task _, .split | .task _, .join | .task _, .nested _ _
  | .nested _ _, .pass _ | .nested _ _, .split | .nested _ _, .join | .nested _ _, .task _ =>
    isFalse (by intro e; cases e)
end

instance : DecidableEq Plan := Plan.decEq
instance : DecidableEq StepSpec := StepSpec.decEq
instance : DecidableEq StepKind := StepKind.decEq

namespace Role

def text : Role → String
  | .normal => "normal"
  | .start => "start"
  | .terminal => "end"

def ofText? : String → Option Role
  | "normal" => some .normal
  | "start" => some .start
  | "end" => some .terminal
  | _ => none

end Role

namespace PlaceSpec

def new (id : String) (role : Role := .normal) : PlaceSpec :=
  { id := Text.trim id, role }

def withLabel (p : PlaceSpec) (label : String) : PlaceSpec :=
  { p with label := some label }

def isTerminal (p : PlaceSpec) : Bool :=
  p.role == .terminal

end PlaceSpec

namespace StepKind

def text : StepKind → String
  | .pass _ => "pass"
  | .split => "split"
  | .join => "join"
  | .nested _ _ => "sub_workflow"
  | .task _ => "task"

end StepKind

namespace StepSpec

def new (id : String) (kind : StepKind) : StepSpec :=
  ⟨Text.trim id, none, [], [], kind⟩

/-- Sends a result of the nested plan to an output. Steps of other kinds stay
as they are. -/
def withResult (s : StepSpec) (result : String) (output : UInt64) : StepSpec :=
  match s.kind with
  | .nested plan results => { s with kind := .nested plan (results.insert result output) }
  | _ => s

def withName (s : StepSpec) (name : String) : StepSpec :=
  { s with name := some name }

def withInput (s : StepSpec) (place : String) : StepSpec :=
  { s with inputs := s.inputs ++ [place] }

def withOutput (s : StepSpec) (place : String) : StepSpec :=
  { s with outputs := s.outputs ++ [place] }

def displayName (s : StepSpec) : String :=
  s.name.getD s.id

end StepSpec

namespace Plan

def new (id : String) : Plan :=
  ⟨Text.trim id, 1, [], []⟩

def withVersion (p : Plan) (version : UInt32) : Plan :=
  { p with version }

def withPlace (p : Plan) (place : PlaceSpec) : Plan :=
  { p with places := p.places ++ [place] }

def withStep (p : Plan) (step : StepSpec) : Plan :=
  { p with steps := p.steps ++ [step] }

def place? (p : Plan) (id : String) : Option PlaceSpec :=
  p.places.find? (·.id == id)

def step? (p : Plan) (id : String) : Option StepSpec :=
  p.steps.find? (·.id == id)

inductive Refusal where
  | placeExists (id : String)
  | stepExists (id : String)
deriving DecidableEq, Repr

def Refusal.message : Refusal → String
  | .placeExists id => "Place '" ++ id ++ "' already exists"
  | .stepExists id => "Step '" ++ id ++ "' already exists"

def addPlace (p : Plan) (place : PlaceSpec) : Except Refusal Plan :=
  if (p.place? place.id).isSome then .error (.placeExists place.id) else .ok (p.withPlace place)

def addStep (p : Plan) (step : StepSpec) : Except Refusal Plan :=
  if (p.step? step.id).isSome then .error (.stepExists step.id) else .ok (p.withStep step)

def start? (p : Plan) : Option PlaceSpec :=
  p.places.find? (·.role == .start)

def terminals (p : Plan) : List PlaceSpec :=
  p.places.filter (·.isTerminal)

def consumersOf (p : Plan) (place : String) : List StepSpec :=
  p.steps.filter (·.inputs.contains place)

def isEmpty (p : Plan) : Bool :=
  p.places.isEmpty && p.steps.isEmpty

end Plan

mutual
def Plan.taskActivities : Plan → List String
  | ⟨_, _, _, steps⟩ => StepSpec.taskActivities steps

def StepSpec.taskActivities : List StepSpec → List String
  | [] => []
  | ⟨_, _, _, _, kind⟩ :: rest => StepKind.taskActivities kind ++ StepSpec.taskActivities rest

def StepKind.taskActivities : StepKind → List String
  | .task activity => [activity]
  | .nested plan _ => Plan.taskActivities plan
  | _ => []
end

def Plan.activities (p : Plan) : List String :=
  p.taskActivities.eraseDups

end RecipeNet
