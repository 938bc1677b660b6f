import RecipeNet.Net.Token
import RecipeNet.Text.Path
import RecipeNet.Timestamp.Basic

/-!
Snapshots: what a paused net holds, as a record that outlives the net. Tokens
stand in one table and are referred to by identity, so siblings still share
their parent. The state of a nested net is a snapshot of its own.
-/

namespace RecipeNet

structure TokenRecord where
  id : TokenId
  payload : Option Json
  /-- The token it was split from. -/
  parent : Option TokenId
deriving DecidableEq, Repr

structure PlaceRecord where
  place : String
  tokens : List TokenId
deriving DecidableEq, Repr

structure GenerationRecord where
  parent : TokenId
  slots : List (Option TokenId)
deriving DecidableEq, Repr

mutual
structure Snapshot where
  planId : String
  version : UInt32
  /-- The fingerprint of the plan that the net runs. -/
  fingerprint : String
  capturedAt : Timestamp
  tokens : List TokenRecord
  places : List PlaceRecord
  transitions : List StepRecord

structure StepRecord where
  step : String
  state : StepState

inductive StepState where
  | join (generations : List GenerationRecord)
  | nested (token : TokenId) (child : Snapshot)
  | task (held : List TokenId)
end

mutual
def Snapshot.decEq : (a b : Snapshot) → Decidable (a = b)
  | ⟨id, version, print, time, tokens, places, steps⟩,
    ⟨id', version', print', time', tokens', places', steps'⟩ =>
    if h : id = id' ∧ version = version' ∧ print = print' ∧ time = time' ∧ tokens = tokens' ∧
        places = places' then
      match StepRecord.decEqList steps steps' with
      | isTrue hs => isTrue (by obtain ⟨rfl, rfl, rfl, rfl, rfl, rfl⟩ := h; rw [hs])
      | isFalse hs => isFalse fun e => hs (by cases e; rfl)
    else isFalse fun e => h (by cases e; exact ⟨rfl, rfl, rfl, rfl, rfl, rfl⟩)

def StepRecord.decEqList : (a b : List StepRecord) → Decidable (a = b)
  | [], [] => isTrue rfl
  | [], _ :: _ => isFalse (by intro e; cases e)
  | _ :: _, [] => isFalse (by intro e; cases e)
  | a :: as, b :: bs =>
    match StepRecord.decEq a b, StepRecord.decEqList as bs with
    | isTrue h, isTrue hs => isTrue (by rw [h, hs])
    | isFalse h, _ => isFalse fun e => h (by cases e; rfl)
    | _, isFalse hs => isFalse fun e => hs (by cases e; rfl)

def StepRecord.decEq : (a b : StepRecord) → Decidable (a = b)
  | ⟨step, state⟩, ⟨step', state'⟩ =>
    if h : step = step' then
      match StepState.decEq state state' with
      | isTrue hs => isTrue (by rw [h, hs])
      | isFalse hs => isFalse fun e => hs (by cases e; rfl)
    else isFalse fun e => h (by cases e; rfl)

def StepState.decEq : (a b : StepState) → Decidable (a = b)
  | .join g, .join g' =>
    if h : g = g' then isTrue (h ▸ rfl) else isFalse fun e => h (by cases e; rfl)
  | .task s, .task s' =>
    if h : s = s' then isTrue (h ▸ rfl) else isFalse fun e => h (by cases e; rfl)
  | .nested t c, .nested t' c' =>
    if h : t = t' then
      match Snapshot.decEq c c' with
      | isTrue hc => isTrue (by rw [h, hc])
      | isFalse hc => isFalse fun e => hc (by cases e; rfl)
    else isFalse fun e => h (by cases e; rfl)
  | .join _, .task _ | .join _, .nested _ _ | .task _, .join _ | .task _, .nested _ _
  | .nested _ _, .join _ | .nested _ _, .task _ => isFalse (by intro e; cases e)
end

instance : DecidableEq Snapshot := Snapshot.decEq
instance : DecidableEq StepRecord := StepRecord.decEq
instance : DecidableEq StepState := StepState.decEq

namespace Snapshot

def placeTokens (s : Snapshot) (place : String) : List TokenId :=
  ((s.places.find? (·.place == place)).map (·.tokens)).getD []

def state? (s : Snapshot) (step : String) : Option StepState :=
  (s.transitions.find? (·.step == step)).map (·.state)

mutual
def nestedCount : Snapshot → Nat
  | ⟨_, _, _, _, _, _, transitions⟩ => nestedCountOf transitions

def nestedCountOf : List StepRecord → Nat
  | [] => 0
  | ⟨_, .nested _ child⟩ :: rest => 1 + nestedCount child + nestedCountOf rest
  | ⟨_, .join _⟩ :: rest | ⟨_, .task _⟩ :: rest => nestedCountOf rest
end

def defaultPath (planPath : String) : String :=
  ".workplan/" ++ (Text.fileStem? planPath).getD "workplan" ++ ".snapshot.json"

end Snapshot
end RecipeNet
