import RecipeNet.Net.Engine
import RecipeNet.Snapshot.TokenTable

/-!
Loading a snapshot into a new net, which is paused then. A snapshot of another
plan is refused before anything has changed; any other misfit halts the net.
-/

namespace RecipeNet

namespace Snapshot

/-- The tokens that a step record says have been taken out of their places. The
tokens in a join are still there. -/
def taken : StepRecord → List TokenId
  | ⟨_, .task held⟩ => held
  | ⟨_, .nested token _⟩ => [token]
  | ⟨_, .join _⟩ => []

def claims (places : List PlaceRecord) (transitions : List StepRecord) : List TokenId :=
  places.flatMap (·.tokens) ++ transitions.flatMap taken

def repeated? : (seen ids : List TokenId) → Option TokenId
  | _, [] => none
  | seen, id :: rest => if id ∈ seen then some id else repeated? (id :: seen) rest

def contents (holdings : List Holding) (tokens : List Token) (places : List PlaceRecord) :
    Except Mismatch (List (Nat × List Token)) :=
  places.mapM fun r =>
    match Engine.placeIndex? holdings r.place with
    | none => .error (.unknownPlace r.place)
    | some place => (r.tokens.mapM (TokenTable.resolve tokens)).map (place, ·)

def unpack (holdings : List Holding) (records : List TokenRecord) (places : List PlaceRecord)
    (transitions : List StepRecord) : Except Mismatch (List Token × List (Nat × List Token)) := do
  let tokens ← TokenTable.tokens records
  match repeated? [] (claims places transitions) with
  | some id => .error (.heldTwice id)
  | none =>
    let held ← contents holdings tokens places
    .ok (tokens, held)

end Snapshot

namespace Generation

def ofRecord (step : String) (inputs : Nat) (tokens : List Token) (r : GenerationRecord) :
    Except Mismatch Generation :=
  if r.slots.length ≠ inputs then .error (.joinWidth step inputs r.slots.length)
  else do
    let slots ← r.slots.mapM fun
      | some id => (TokenTable.resolve tokens id).map some
      | none => .ok none
    let parent ← TokenTable.resolve tokens r.parent
    .ok ⟨parent, slots⟩

end Generation

def Transition.nest? : Transition → Option Nest
  | .idle nest | .busy nest _ _ => some nest
  | _ => none

namespace Engine

def misfit? (e : Engine) (planId : String) (version : UInt32) (fingerprint : String) :
    Option Mismatch :=
  if planId ≠ e.plan.id then some (.otherPlan planId)
  else if version ≠ e.plan.version then some (.otherVersion version e.plan.version)
  else if fingerprint ≠ e.fingerprint then some .planChanged
  else none

def fill (holdings : List Holding) (contents : List (Nat × List Token)) : List Holding :=
  contents.foldl (fun holdings (place, ts) =>
    holdings.modify place fun h => ts.foldl Holding.add h) holdings

def spoiled (e : Engine) (slots : List Slot) (f : Fault) : Engine :=
  { e with slots, status := .halted, haltedBy := some f }

end Engine

mutual
def Engine.restore (e : Engine) : Snapshot → Engine × Except Fault Unit
  | ⟨planId, version, fingerprint, _, records, places, transitions⟩ =>
    if e.status ≠ .created then (e, .error (.wrongState .restore e.status))
    else
      match e.misfit? planId version fingerprint with
      | some reason => (e, .error (.snapshotMismatch e.plan.id reason))
      | none =>
        match Snapshot.unpack e.holdings records places transitions with
        | .error reason =>
          let f := .snapshotMismatch e.plan.id reason
          (e.spoiled e.slots f, .error f)
        | .ok (tokens, contents) =>
          match Slot.restoreAll e.plan.id tokens e.slots transitions with
          | (slots, .error f) => (e.spoiled slots f, .error f)
          | (slots, .ok ()) =>
            ({ e with
                slots := slots.map fun slot => { slot with phase := slot.phase.suspend }
                holdings := Engine.fill e.holdings contents
                status := .paused }, .ok ())

def Slot.restoreAll (plan : String) (tokens : List Token) (slots : List Slot) :
    List StepRecord → List Slot × Except Fault Unit
  | [] => (slots, .ok ())
  | ⟨step, state⟩ :: rest =>
    match Engine.slotIndex? slots step with
    | none => (slots, .error (.snapshotMismatch plan (.unknownStep step)))
    | some i =>
      match slots[i]? with
      | none => (slots, .error (.snapshotMismatch plan (.unknownStep step)))
      | some slot =>
        match Transition.restored plan step tokens slot.transition state with
        | .error f => (slots, .error f)
        | .ok transition => Slot.restoreAll plan tokens (slots.set i { slot with transition }) rest

def Transition.restored (plan step : String) (tokens : List Token) (transition : Transition) :
    StepState → Except Fault Transition
  | .join generations =>
    match transition with
    | .join inputs _ =>
      match generations.mapM (Generation.ofRecord step inputs tokens) with
      | .error reason => .error (.snapshotMismatch plan reason)
      | .ok pending => .ok (.join inputs pending)
    | _ => .error (.snapshotMismatch plan (.otherKind step transition.kind))
  | .task held =>
    match transition with
    | .task activity _ =>
      match held.mapM (TokenTable.resolve tokens) with
      | .error reason => .error (.snapshotMismatch plan reason)
      | .ok held => .ok (.task activity held)
    | _ => .error (.snapshotMismatch plan (.otherKind step transition.kind))
  | .nested token child =>
    match transition.nest? with
    | none => .error (.snapshotMismatch plan (.otherKind step transition.kind))
    | some nest =>
      match TokenTable.resolve tokens token with
      | .error reason => .error (.snapshotMismatch plan reason)
      | .ok token =>
        match Engine.build nest.fitter nest.plan with
        | .error f => .error f
        | .ok fresh =>
          match Engine.restore fresh child with
          | (_, .error f) => .error f
          | (child, .ok ()) => .ok (.busy nest token child)
end

def Engine.restored (fitter : Fitter) (plan : Plan) (s : Snapshot) : Except Fault Engine := do
  let e ← Engine.build fitter plan
  match e.restore s with
  | (e, .ok ()) => .ok e
  | (_, .error f) => .error f

end RecipeNet
