import RecipeNet.Json.Reader
import RecipeNet.Plan.Document
import RecipeNet.Snapshot.Basic
import RecipeNet.Timestamp.Reader

/-!
Snapshots as JSON documents. Reading passes over what it does not know, but
keeps the payloads and the states of steps as whole values first, and those may
be neither broken nor nested too deeply.
-/

namespace RecipeNet

def TokenId.toJson (id : TokenId) : Json := .str id.text

def TokenRecord.toJson (r : TokenRecord) : Json :=
  .obj (("id", r.id.toJson) ::
    ((r.payload.map fun v => ("payload", v)).toList ++
      (r.parent.map fun id => ("original", id.toJson)).toList))

def PlaceRecord.toJson (r : PlaceRecord) : Json :=
  .obj [("place", .str r.place), ("tokens", .arr (r.tokens.map (·.toJson)))]

def GenerationRecord.toJson (r : GenerationRecord) : Json :=
  .obj [("original", r.parent.toJson),
    ("slots", .arr (r.slots.map fun slot => (slot.map (·.toJson)).getD .null))]

mutual
def Snapshot.toJson : Snapshot → Json
  | ⟨planId, version, fingerprint, capturedAt, tokens, places, transitions⟩ =>
    .obj [("workplan_id", .str planId), ("version", .int version.toNat),
      ("fingerprint", .str fingerprint), ("captured_at", .str capturedAt.text),
      ("tokens", .arr (tokens.map (·.toJson))), ("places", .arr (places.map (·.toJson))),
      ("transitions", .arr (StepRecord.toJsons transitions))]

def StepRecord.toJsons : List StepRecord → List Json
  | [] => []
  | ⟨step, state⟩ :: rest =>
    .obj [("step", .str step), ("state", StepState.toJson state)] :: StepRecord.toJsons rest

def StepState.toJson : StepState → Json
  | .join generations =>
    .obj [("kind", .str "join"), ("generations", .arr (generations.map (·.toJson)))]
  | .nested token child =>
    .obj [("kind", .str "sub_workflow"), ("token", token.toJson), ("child", Snapshot.toJson child)]
  | .task held => .obj [("kind", .str "task"), ("held", .arr (held.map (·.toJson)))]
end

def Snapshot.fileText (s : Snapshot) : String :=
  s.toJson.pretty

namespace Data

def tokenId? (v : Data) : Option TokenId :=
  v.str?.bind TokenId.parse?

def timestamp? (v : Data) : Option Timestamp :=
  v.str?.bind Timestamp.parse?

def list? {α : Type} (read : Data → Option α) : Data → Option (List α)
  | .seq items => items.mapM read
  | _ => none

def nullable? {α : Type} (read : Data → Option α) : Data → Option (Option α)
  | .null => some none
  | v => (read v).map some

/-- How deeply the value of a token's payload or a step's state may be nested.
A document may have 127 levels, and such a value stands below three. -/
def keptDepth : Nat := 124

/-- A value that is kept as a whole. Within another kept value there is nothing
left to check. -/
def kept? (within : Bool) (v : Data) : Option Data :=
  if within || (v.sound && v.depth ≤ keptDepth) then some v else none

def tokenRecord? (within : Bool) (v : Data) : Option TokenRecord := do
  let fields ← v.fields? ["id", "payload", "original"]
  let id ← fields.required "id" tokenId?
  let payload ← fields.optional "payload" none (nullable? fun v => (v.kept? within).bind (·.toJson?))
  let parent ← fields.optional "original" none (nullable? tokenId?)
  some ⟨id, payload, parent⟩

def placeRecord? (v : Data) : Option PlaceRecord := do
  let fields ← v.fields? ["place", "tokens"]
  let place ← fields.required "place" str?
  let tokens ← fields.required "tokens" (list? tokenId?)
  some ⟨place, tokens⟩

def generationRecord? (v : Data) : Option GenerationRecord := do
  let fields ← v.fields? ["original", "slots"]
  let parent ← fields.required "original" tokenId?
  let slots ← fields.required "slots" (list? (nullable? tokenId?))
  some ⟨parent, slots⟩

def stateNames : List String :=
  ["join", "sub_workflow", "task"]

/-- The name of its kind that a state gives, and the rest of the state: a map
has an entry `kind`, a sequence starts with it. -/
def stateParts? (within : Bool) : Data → Option (String × Data)
  | .map entries => do
    let found ← onlyEntry? "kind" entries
    let kind ← found.bind (choice? within stateNames)
    some (kind, .map (entries.filter fun e => !isNamed ["kind"] e.1))
  | .seq (v :: rest) => (choice? within stateNames v).map fun kind => (kind, .seq rest)
  | _ => none

def stepStateWith? (readChild : Data → Option Snapshot) (within : Bool) (v : Data) :
    Option StepState := do
  let v ← v.kept? within
  let (kind, rest) ← v.stateParts? within
  match kind with
  | "join" =>
    let fields ← rest.fields? ["generations"]
    let generations ← fields.required "generations" (list? generationRecord?)
    some (.join generations)
  | "sub_workflow" =>
    let fields ← rest.fields? ["token", "child"]
    let token ← fields.required "token" tokenId?
    let child ← fields.required "child" readChild
    some (.nested token child)
  | "task" =>
    let fields ← rest.fields? ["held"]
    let held ← fields.required "held" (list? tokenId?)
    some (.task held)
  | _ => none

def stepRecordWith? (readChild : Data → Option Snapshot) (within : Bool) (v : Data) :
    Option StepRecord := do
  let fields ← v.fields? ["step", "state"]
  let step ← fields.required "step" str?
  let state ← fields.required "state" (stepStateWith? readChild within)
  some ⟨step, state⟩

/-- A snapshot whose nested snapshots are at most `fuel` deep; `within` says
that it is nested itself. -/
def snapshotWithin? : Nat → Bool → Data → Option Snapshot
  | 0, _, _ => none
  | fuel + 1, within, v => do
    let fields ← v.fields?
      ["workplan_id", "version", "fingerprint", "captured_at", "tokens", "places", "transitions"]
    let planId ← fields.required "workplan_id" str?
    let version ← fields.required "version" word32?
    let fingerprint ← fields.required "fingerprint" str?
    let capturedAt ← fields.required "captured_at" timestamp?
    let tokens ← fields.required "tokens" (list? (tokenRecord? within))
    let places ← fields.required "places" (list? placeRecord?)
    let transitions ← fields.optional "transitions" []
      (list? (stepRecordWith? (snapshotWithin? fuel true) within))
    some { planId, version, fingerprint, capturedAt, tokens, places, transitions }

def snapshot? (v : Data) : Option Snapshot :=
  snapshotWithin? (v.rank + 1) false v

end Data

def Snapshot.ofFileText? (text : String) : Option Snapshot :=
  (Json.read? text).bind (·.snapshot?)

end RecipeNet
