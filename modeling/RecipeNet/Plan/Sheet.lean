import RecipeNet.Plan.Document
import RecipeNet.Yaml.Printer
import RecipeNet.Yaml.Value

/-!
Plans written by hand as YAML sheets. The fields of the plan, its places and
its steps take any plain scalar as text; what belongs to the kind of a step,
with all that is nested in it, keeps the type that YAML gives it.
-/

namespace RecipeNet.Plan.Sheet

open Yaml

def depthLimit : Nat := 128

def text (n : Node) : Reading String := do
  match ← resolve n with
  | .scalar _ _ _ s => pure s
  | _ => failure

/-- Whether a scalar of a given tag is null where a text may be missing; the
outer `none` is a null tag on something else. -/
def isMissing? (tag : Option String) (style : Style) (s : String) : Option Bool :=
  if style ≠ .plain then some false
  else
    match tag with
    | some t => if t = coreTag "null" then (if isNullText s then some true else none) else some false
    | none => some (s.isEmpty || isNullText s)

def optionalText (n : Node) : Reading (Option String) := do
  match ← resolve n with
  | .scalar _ tag style s =>
    match isMissing? tag style s with
    | some true => pure none
    | some false => pure (some s)
    | none => failure
  | _ => failure

def version (n : Node) : Reading UInt32 := do
  match ← resolve n with
  | .scalar _ tag style s =>
    if style = .plain ∨ (style = .literal ∧ tag = some (coreTag "int")) then
      match unsignedOf? (Nat.pow 2 32) s.toList with
      | some v => pure (UInt32.ofNat v)
      | none => failure
    else failure
  | _ => failure

/-- The role of a node: its text, or the name of its tag on an empty scalar. -/
def role (n : Node) : Reading Role := do
  match ← resolve n with
  | .scalar _ tag style s =>
    match localTag? tag with
    | some name =>
      if style = .plain ∧ (s.isEmpty ∨ isNullText s) then StateT.lift (Role.ofText? name) else failure
    | none => StateT.lift (Role.ofText? s)
  | _ => failure

def items (n : Node) : Reading (List Node) := do
  match ← resolve n with
  | .seq _ _ ns => pure ns
  | .scalar _ _ .plain "" => pure []
  | _ => failure

def entries (n : Node) : Reading (List (String × Node)) := do
  match ← resolve n with
  | .map _ _ es => es.mapM fun (k, v) => do
    let k ← text k
    pure (k, v)
  | .scalar _ _ .plain "" => pure []
  | _ => failure

def namesOnce (names : List String) (es : List (String × Node)) : Bool :=
  names.all fun name => es.countP (·.1 == name) ≤ 1

def required {α : Type} (es : List (String × Node)) (name : String) (read : Node → Reading α) :
    Reading α :=
  match es.lookup name with
  | some n => read n
  | none => failure

def optional {α : Type} (es : List (String × Node)) (name : String) (default : α)
    (read : Node → Reading α) : Reading α :=
  match es.lookup name with
  | some n => read n
  | none => pure default

def texts (n : Node) : Reading (List String) := do
  (← items n).mapM text

def placeSpec (n : Node) : Reading PlaceSpec := do
  let es ← entries n
  if !namesOnce ["id", "role", "classification"] es then failure
  else
    let id ← required es "id" text
    let role ← optional es "role" .normal role
    let label ← optional es "classification" none optionalText
    pure { id, role, label }

def stepSpec (n : Node) : Reading StepSpec := do
  let es ← entries n
  if !namesOnce Data.stepNames es then failure
  else
    let id ← required es "id" text
    let name ← optional es "name" none optionalText
    let inputs ← optional es "inputs" [] texts
    let outputs ← optional es "outputs" [] texts
    let others ← (es.filter (·.1 ∉ Data.stepNames)).mapM fun (k, v) => do
      let v ← valueOf (depthLimit - 3) v
      pure (Data.str k, v)
    match Data.stepKindWith? Data.nestedPlan? others with
    | some kind => pure ⟨id, name, inputs, outputs, kind⟩
    | none => failure

def plan (n : Node) : Reading Plan := do
  let es ← entries n
  if !namesOnce ["id", "version", "places", "steps"] es then failure
  else
    let id ← required es "id" text
    let version ← optional es "version" 1 version
    let places ← optional es "places" [] fun n => do (← items n).mapM placeSpec
    let steps ← optional es "steps" [] fun n => do (← items n).mapM stepSpec
    pure ⟨id, version, places, steps⟩

/-- The plan that a root node describes. A hundred aliases may be followed for
each event of the document. -/
def ofNode? (root : Node) : Option Plan :=
  ((plan root).run ⟨root.anchored, 100 * root.eventCount⟩).map (·.1)

def parse? (sheet : String) : Option Plan := do
  let root ← document? sheet
  ofNode? (← root)

/-- The style a text asks for: lines if it has several, quotes if it would be
read as something else, and otherwise none. -/
def styleOf (s : String) : Style :=
  if s.toList.contains '\n' then .literal
  else if s.isEmpty || isNullText s || (boolOf? s).isSome || (numericOf? s).isSome ||
      hasLeadingZero s.toList then .singleQuoted
  else .plain

def textNode (s : String) : Node := .scalar none none (styleOf s) s

/-- The node of a number or a word that is only ever read as such. -/
def wordNode (s : String) : Node := .scalar none none .plain s

def mapNode (es : List (String × Node)) : Node :=
  .map none none (es.map fun e => (textNode e.1, e.2))

def textNodes (ss : List String) : Node := .seq none none (ss.map textNode)

def optionalNode (name : String) : Option String → List (String × Node)
  | none => []
  | some s => [(name, textNode s)]

def placeNode (p : PlaceSpec) : Node :=
  mapNode (("id", textNode p.id) :: ("role", textNode p.role.text) ::
    optionalNode "classification" p.label)

def resultsNode (m : ResultMap) : Node :=
  mapNode (m.entries.map fun e => (e.1, wordNode (toString e.2.toNat)))

mutual
def planNode : Plan → Node
  | ⟨id, version, places, steps⟩ =>
    mapNode [("id", textNode id), ("version", wordNode (toString version.toNat)),
      ("places", .seq none none (places.map placeNode)), ("steps", .seq none none (stepNodes steps))]

def stepNodes : List StepSpec → List Node
  | [] => []
  | s :: rest => stepNode s :: stepNodes rest

def stepNode : StepSpec → Node
  | ⟨id, name, inputs, outputs, kind⟩ =>
    mapNode (("id", textNode id) :: (optionalNode "name" name ++
      ("inputs", textNodes inputs) :: ("outputs", textNodes outputs) ::
        ("kind", textNode kind.text) :: kindEntries kind))

def kindEntries : StepKind → List (String × Node)
  | .pass output => [("output", wordNode (toString output.toNat))]
  | .split => []
  | .join => []
  | .nested plan results =>
    ("workplan", planNode plan) ::
      (if results.isEmpty then [] else [("results", resultsNode results)])
  | .task activity => [("activity", textNode activity)]
end

def render (p : Plan) : String :=
  Printer.render (planNode p)

end RecipeNet.Plan.Sheet
