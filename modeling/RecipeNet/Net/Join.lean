import RecipeNet.Net.Reaction

/-!
Joins collect the siblings of one split until each input has one, and make the
parent token of them. Siblings of different parents are kept apart.
-/

namespace RecipeNet

/-- The siblings of one parent that a join has seen, by input. -/
structure Generation where
  parent : Token
  slots : List (Option Token)
deriving Inhabited

namespace Generation

def isComplete (g : Generation) : Bool := g.slots.all (·.isSome)

def buffers (g : Generation) (t : Token) : Bool :=
  g.slots.any fun slot => slot.any (·.same t)

def siblings (g : Generation) : List (Nat × Token) :=
  g.slots.zipIdx.filterMap fun (slot, input) => slot.map (input, ·)

def freeSlot? (g : Generation) (r : Reaction) (t : Token) : Option Nat :=
  (g.slots.zipIdx.find? fun (slot, input) => slot.isNone && r.holds input t).map (·.2)

/-- The generation without the siblings that have left their places. -/
def refresh (g : Generation) (r : Reaction) : Generation :=
  { g with slots := g.slots.zipIdx.map fun (slot, input) => slot.filter (r.holds input ·) }

end Generation

inductive Seat where
  /-- It is there already. -/
  | seated
  | slot (input : Nat)
  | none (reason : Surprise)

/-- The seat of a token that has arrived on an input: the slot of that input,
or another free one that reads the same place. -/
def Generation.seat (g : Generation) (r : Reaction) (input : Nat) (t : Token) : Seat :=
  match g.slots[input]? with
  | Option.none => .none (.noSlot g.slots.length input)
  | some current =>
    if current.any (·.same t) || g.buffers t then .seated
    else
      match current with
      | Option.none => .slot input
      | some held =>
        match g.freeSlot? r t with
        | some slot => .slot slot
        | Option.none => .none (.taken input held.id g.parent.id)

namespace Join

def locate (pending : List Generation) (parent : Token) (width : Nat) : List Generation × Nat :=
  match pending.findIdx? fun g => g.parent.same parent with
  | some i => (pending, i)
  | none => (pending ++ [⟨parent, List.replicate width none⟩], pending.length)

/-- Fires a complete generation, or keeps what is left of it if one of its
siblings is gone. -/
def complete (pending : List Generation) (g : Generation) (r : Reaction) :
    Reaction × List Generation × Except Fault Unit :=
  match r.fire g.siblings [(0, g.parent)] with
  | (r, .error f) => (r, pending, .error f)
  | (r, .ok true) => (r, pending, .ok ())
  | (r, .ok false) => (r, pending ++ [g.refresh r], .ok ())

def arrive (pending : List Generation) (r : Reaction) (input : Nat) (t : Token) :
    Reaction × List Generation × Except Fault Unit :=
  if !r.holds input t then (r, pending, .ok ())
  else
    match t.parent with
    | none => (r, pending, .error (.unexpectedToken r.step t.id .notSplit))
    | some parent =>
      let (pending, i) := locate pending parent r.inputs.length
      match pending[i]? with
      | none => (r, pending, .ok ())
      | some g =>
        match g.seat r input t with
        | .seated => (r, pending, .ok ())
        | .none reason => (r, pending, .error (.unexpectedToken r.step t.id reason))
        | .slot slot =>
          let g := { g with slots := g.slots.set slot (some t) }
          if g.isComplete then complete (pending.eraseIdx i) g r
          else (r, pending.set i g, .ok ())

end Join
end RecipeNet
