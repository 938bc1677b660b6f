import RecipeNet.Plan.OutputMap

/-!
Faults in the definition of a plan. `flaws` lists all of them in the order of
the places and steps; a plan is sound when the list is empty.
-/

namespace RecipeNet

inductive ArityFlaw where
  | needsOneInput (found : Nat)
  | needsInput
  | needsOneOutput (found : Nat)
  | needsOutput
  | noSuchOutput (index : Nat) (found : Nat)
deriving DecidableEq, Repr

inductive Flaw where
  | noPlaces
  | blankPlaceId
  | blankStepId
  | duplicatePlace (id : String)
  | duplicateStep (id : String)
  | noStart
  | manyStarts (count : Nat)
  | noTerminal
  | unknownPlace (step place : String)
  | arity (step kind : String) (problem : ArityFlaw)
  | unmappedTerminal (step place : String)
  | missingOutput (step place : String) (index : Nat)
  | inNested (step : String) (flaw : Flaw)
deriving DecidableEq, Repr

def ArityFlaw.message : ArityFlaw → String
  | .needsOneInput found => "needs exactly 1 input, has " ++ toString found
  | .needsInput => "needs at least 1 input"
  | .needsOneOutput found => "needs exactly 1 output, has " ++ toString found
  | .needsOutput => "needs at least 1 output"
  | .noSuchOutput index found =>
    "forwards to output " ++ toString index ++ " but has " ++ toString found ++ " outputs"

def Flaw.message : Flaw → String
  | .noPlaces => "Workplan has no places"
  | .blankPlaceId => "Place has empty or whitespace-only ID"
  | .blankStepId => "Step has empty or whitespace-only ID"
  | .duplicatePlace id => "Duplicate place ID: '" ++ id ++ "'"
  | .duplicateStep id => "Duplicate step ID: '" ++ id ++ "'"
  | .noStart => "Workplan has no start place"
  | .manyStarts count => "Workplan has " ++ toString count ++ " start places, expected exactly one"
  | .noTerminal => "Workplan has no terminal place"
  | .unknownPlace step place => "Step '" ++ step ++ "' references unknown place '" ++ place ++ "'"
  | .arity step kind problem => "Step '" ++ step ++ "' (" ++ kind ++ ") " ++ problem.message
  | .unmappedTerminal step place =>
    "Sub-workflow '" ++ step ++ "' cannot map child terminal place '" ++ place ++ "' to an output"
  | .missingOutput step place index =>
    "Sub-workflow '" ++ step ++ "' maps child terminal place '" ++ place ++ "' to missing output " ++
      toString index
  | .inNested step flaw => "Nested workplan of '" ++ step ++ "': " ++ flaw.message

def isBlankId (id : String) : Bool :=
  (Text.trim id).isEmpty

/-- Faults of places in turn, where `seen` are the ids before them. -/
def placeFlaws (seen : List String) : List PlaceSpec → List Flaw
  | [] => []
  | p :: rest =>
    if isBlankId p.id then .blankPlaceId :: placeFlaws seen rest
    else if p.id ∈ seen then .duplicatePlace p.id :: placeFlaws seen rest
    else placeFlaws (p.id :: seen) rest

def roleFlaws (places : List PlaceSpec) : List Flaw :=
  let starts := places.countP (·.role == .start)
  (if starts = 0 then [.noStart] else if starts = 1 then [] else [.manyStarts starts]) ++
    (if places.any (·.isTerminal) then [] else [.noTerminal])

def placeIds (places : List PlaceSpec) : List String :=
  (places.map (·.id)).filter (!isBlankId ·)

def connectorFlaws (known : List String) (step : StepSpec) : List Flaw :=
  ((step.inputs ++ step.outputs).filter (· ∉ known)).map (.unknownPlace step.id)

def arityProblems (step : StepSpec) : List ArityFlaw :=
  let ins := step.inputs.length
  let outs := step.outputs.length
  let oneInput : List ArityFlaw := if ins = 1 then [] else [.needsOneInput ins]
  let someOutput : List ArityFlaw := if outs = 0 then [.needsOutput] else []
  match step.kind with
  | .pass output =>
    oneInput ++ (if output.toNat < outs then [] else [.noSuchOutput output.toNat outs])
  | .join =>
    (if ins = 0 then [.needsInput] else []) ++ (if outs = 1 then [] else [.needsOneOutput outs])
  | .split | .task _ | .nested _ _ => oneInput ++ someOutput

def arityFlaws (step : StepSpec) : List Flaw :=
  (arityProblems step).map (.arity step.id step.kind.text)

def outputFlaws (id : String) (outputs : Nat) (plan : Plan) (results : ResultMap) : List Flaw :=
  let m := OutputMap.of plan results
  plan.terminals.filterMap fun place =>
    match m.output? place.id with
    | none => some (.unmappedTerminal id place.id)
    | some index => if index < outputs then none else some (.missingOutput id place.id index)

mutual
def Plan.flaws : Plan → List Flaw
  | ⟨_, _, places, steps⟩ =>
    if places.isEmpty then [.noPlaces]
    else placeFlaws [] places ++ roleFlaws places ++ StepSpec.flaws (placeIds places) [] steps

def StepSpec.flaws (known : List String) (seen : List String) : List StepSpec → List Flaw
  | [] => []
  | ⟨id, name, inputs, outputs, kind⟩ :: rest =>
    if isBlankId id then .blankStepId :: StepSpec.flaws known seen rest
    else
      let step : StepSpec := ⟨id, name, inputs, outputs, kind⟩
      (if id ∈ seen then [.duplicateStep id] else []) ++ connectorFlaws known step ++
        arityFlaws step ++ StepKind.flaws id outputs.length kind ++
          StepSpec.flaws known (id :: seen) rest

/-- Faults of a nested plan, or of where its results go if it has none. -/
def StepKind.flaws (id : String) (outputs : Nat) : StepKind → List Flaw
  | .nested ⟨pid, version, places, steps⟩ results =>
    let plan : Plan := ⟨pid, version, places, steps⟩
    match Plan.flaws ⟨pid, version, places, steps⟩ with
    | [] => outputFlaws id outputs plan results
    | found => found.map (.inNested id)
  | _ => []
end

namespace Plan

def isSound (p : Plan) : Bool :=
  p.flaws.isEmpty

end Plan
end RecipeNet
