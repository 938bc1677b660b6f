import RecipeNet.Net.Holding

/-!
The view that a step has of its net while it reacts to a token. Inputs and
outputs are connectors of the step, each of which stands for a place of the
net. A firing takes all its tokens or none.
-/

namespace RecipeNet

/-- A step at work. -/
structure Reaction where
  step : String
  /-- The places behind the inputs. -/
  inputs : List Nat
  /-- The places behind the outputs. -/
  outputs : List Nat
  holdings : List Holding
  /-- Tokens put into places so far, with the places. -/
  produced : List (Nat × Token) := []
  events : List Event := []

namespace Reaction

def input? (r : Reaction) (input : Nat) : Option Holding :=
  r.inputs[input]?.bind fun place => r.holdings[place]?

def holds (r : Reaction) (input : Nat) (t : Token) : Bool :=
  (r.input? input).any (·.holds t)

def waiting? (r : Reaction) (input : Nat) : Option Token :=
  (r.input? input).bind (·.tokens.head?)

def outputPlace (r : Reaction) (output : Nat) : Except Fault Nat :=
  match r.outputs[output]? with
  | some place => .ok place
  | none => .error (.noSuchOutput r.step output r.outputs.length)

def targets (r : Reaction) : List (Nat × Token) → Except Fault (List (Nat × Token))
  | [] => .ok []
  | (output, t) :: rest =>
    match r.outputPlace output with
    | .error f => .error f
    | .ok place => (r.targets rest).map ((place, t) :: ·)

def put (r : Reaction) (place : Nat) (t : Token) : Reaction :=
  { r with holdings := r.holdings.modify place (·.add t), produced := r.produced ++ [(place, t)] }

def consume (r : Reaction) : List (Nat × Token) → Reaction × Except Fault Unit
  | [] => (r, .ok ())
  | (input, t) :: rest =>
    match r.inputs[input]?, r.input? input with
    | some place, some h =>
      match h.remove t with
      | .ok h => consume { r with holdings := r.holdings.set place h } rest
      | .error f => (r, .error f)
    | _, _ => consume r rest

def raise (r : Reaction) (e : Event) : Reaction :=
  { r with events := r.events ++ [e] }

/-- Takes tokens from inputs and puts tokens into outputs, as one firing. The
answer is false when a token is gone, and then nothing has happened. -/
def fire (r : Reaction) (taken made : List (Nat × Token)) : Reaction × Except Fault Bool :=
  match r.targets made with
  | .error f => (r, .error f)
  | .ok placed =>
    if taken.all fun (input, t) => r.holds input t then
      match r.consume taken with
      | (r, .error f) => (r, .error f)
      | (r, .ok ()) =>
        let r := placed.foldl (fun r e => r.put e.1 e.2) r
        (r.raise (.fired (.ofStep r.step)), .ok true)
    else (r, .ok false)

/-- Puts a token that was taken earlier into an output. -/
def produce (r : Reaction) (output : Nat) (t : Token) : Except Fault Reaction :=
  (r.outputPlace output).map fun place => r.put place t

end Reaction
end RecipeNet
