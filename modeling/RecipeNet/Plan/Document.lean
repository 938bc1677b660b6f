import RecipeNet.Data.Basic
import RecipeNet.Json.Printer
import RecipeNet.Plan.Basic
import RecipeNet.Sha256

/-!
Plans as JSON documents. Writing gives each field in a fixed place and leaves
out what is absent, so a plan has one text; its hash is the plan's fingerprint.
Reading fills in what is left out and passes over what it does not know.
-/

namespace RecipeNet

def Json.optionalField (name : String) : Option String → List (String × Json)
  | none => []
  | some s => [(name, .str s)]

def Json.strs (items : List String) : Json :=
  .arr (items.map .str)

def ResultMap.toJson (m : ResultMap) : Json :=
  .obj (m.entries.map fun e => (e.1, .int e.2.toNat))

def PlaceSpec.toJson (p : PlaceSpec) : Json :=
  .obj (("id", .str p.id) :: ("role", .str p.role.text) ::
    Json.optionalField "classification" p.label)

mutual
def Plan.toJson : Plan → Json
  | ⟨id, version, places, steps⟩ =>
    .obj [("id", .str id), ("version", .int version.toNat),
      ("places", .arr (places.map PlaceSpec.toJson)), ("steps", .arr (StepSpec.toJsons steps))]

def StepSpec.toJsons : List StepSpec → List Json
  | [] => []
  | s :: rest => StepSpec.toJson s :: StepSpec.toJsons rest

def StepSpec.toJson : StepSpec → Json
  | ⟨id, name, inputs, outputs, kind⟩ =>
    .obj (("id", .str id) :: (Json.optionalField "name" name ++
      ("inputs", Json.strs inputs) :: ("outputs", Json.strs outputs) ::
        ("kind", .str kind.text) :: StepKind.toFields kind))

def StepKind.toFields : StepKind → List (String × Json)
  | .pass output => [("output", .int output.toNat)]
  | .split => []
  | .join => []
  | .nested plan results =>
    ("workplan", Plan.toJson plan) ::
      (if results.isEmpty then [] else [("results", results.toJson)])
  | .task activity => [("activity", .str activity)]
end

namespace Plan

def text (p : Plan) : String :=
  p.toJson.compact

/-- The hash of a plan's text, which stands for its definition. -/
def fingerprint (p : Plan) : String :=
  Sha256.hexOfText p.text

end Plan

namespace Data

def word32? (v : Data) : Option UInt32 :=
  (v.nat? (Nat.pow 2 32)).map UInt32.ofNat

def word64? (v : Data) : Option UInt64 :=
  (v.nat? (Nat.pow 2 64)).map UInt64.ofNat

/-- A role, as its word or as a map from its word to nothing. A value within
another one may also number the role and write nothing as an empty map. -/
def role? (within : Bool) : Data → Option Role
  | .str s => Role.ofText? s
  | .map [(k, v)] => do
    let name ← choice? within ["normal", "start", "end"] k
    match v with
    | .null => Role.ofText? name
    | .map [] => if within then Role.ofText? name else none
    | _ => none
  | _ => none

def placeSpec? (within : Bool) (v : Data) : Option PlaceSpec := do
  let fields ← v.fields? ["id", "role", "classification"]
  let id ← fields.required "id" str?
  let role ← fields.optional "role" .normal (role? within)
  let label ← fields.optional "classification" none optionalStr?
  some { id, role, label }

/-- The entries of a result map, of which the last of a name counts. -/
def resultMap? : Data → Option ResultMap
  | .map entries => do
    let pairs ← entries.mapM fun (k, v) => do
      let name ← k.str?
      let output ← v.word64?
      some (name, output)
    some (ResultMap.ofList pairs)
  | _ => none

def kindNames : List String :=
  ["pass", "split", "join", "sub_workflow", "task"]

/-- The value of the one entry with a given text as its key; two such entries
are refused. -/
def onlyEntry? (name : String) : List (Data × Data) → Option (Option Data)
  | [] => some none
  | (.str k, v) :: rest => do
    let later ← onlyEntry? name rest
    if k = name then (if later.isSome then none else some (some v)) else some later
  | _ :: rest => onlyEntry? name rest

def stepNames : List String :=
  ["id", "name", "inputs", "outputs"]

def isNamed (names : List String) : Data → Bool
  | .str s => s ∈ names
  | _ => false

mutual
/-- The greatest number of maps, sequences and entries on one path: a bound for
how deeply plans can be nested in a value. -/
def rank : Data → Nat
  | .seq items => 1 + rankItems items
  | .map entries => 1 + rankEntries entries
  | _ => 0

def rankItems : List Data → Nat
  | [] => 0
  | v :: rest => max (rank v) (rankItems rest)

def rankEntries : List (Data × Data) → Nat
  | [] => 0
  | (_, v) :: rest => max (rank v) (rankEntries rest)
end

/-- The kind that a step's remaining entries give, where `readPlan` reads a
nested plan. -/
def stepKindWith? (readPlan : Data → Option Plan) (entries : List (Data × Data)) :
    Option StepKind := do
  let kindValue ← onlyEntry? "kind" entries
  let kind ← kindValue.bind (choice? true kindNames)
  let rest := entries.filter fun e => !isNamed ["kind"] e.1
  match kind with
  | "pass" =>
    let fields ← fieldsOfEntries? ["output"] rest
    let output ← fields.optional "output" 0 word64?
    some (.pass output)
  | "split" => some .split
  | "join" => some .join
  | "sub_workflow" =>
    let fields ← fieldsOfEntries? ["workplan", "results"] rest
    let plan ← fields.required "workplan" readPlan
    let results ← fields.optional "results" .empty resultMap?
    some (.nested plan results)
  | "task" =>
    let fields ← fieldsOfEntries? ["activity"] rest
    let activity ← fields.required "activity" str?
    some (.task activity)
  | _ => none

def stepSpecWith? (readPlan : Data → Option Plan) : Data → Option StepSpec
  | .map entries => do
    if !entries.all (·.1.isKey) then none
    else
      let own := entries.filter fun e => isNamed stepNames e.1
      let others := entries.filter fun e => !isNamed stepNames e.1
      let fields ← fieldsOfEntries? stepNames own
      let id ← fields.required "id" str?
      let name ← fields.optional "name" none optionalStr?
      let inputs ← fields.optional "inputs" [] strs?
      let outputs ← fields.optional "outputs" [] strs?
      let kind ← stepKindWith? readPlan others
      some ⟨id, name, inputs, outputs, kind⟩
  | _ => none

/-- A plan whose nested plans are at most `fuel` deep; `within` says that it is
nested itself. -/
def planWithin? : Nat → Bool → Data → Option Plan
  | 0, _, _ => none
  | fuel + 1, within, v => do
    let fields ← v.fields? ["id", "version", "places", "steps"]
    let id ← fields.required "id" str?
    let version ← fields.optional "version" 1 word32?
    let places ← fields.optional "places" [] fun
      | .seq items => items.mapM (placeSpec? within)
      | _ => none
    let steps ← fields.optional "steps" [] fun
      | .seq items => items.mapM (stepSpecWith? (planWithin? fuel true))
      | _ => none
    some ⟨id, version, places, steps⟩

def plan? (v : Data) : Option Plan :=
  planWithin? (v.rank + 1) false v

def nestedPlan? (v : Data) : Option Plan :=
  planWithin? (v.rank + 1) true v

end Data

def Plan.ofJson? (v : Json) : Option Plan :=
  (Data.ofJson v).plan?

end RecipeNet
