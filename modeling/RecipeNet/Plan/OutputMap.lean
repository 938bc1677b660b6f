import RecipeNet.Plan.Basic

/-!
Where the results of a nested plan go: each terminal place is given an output
by its id, else by its label. Without any results the terminal places take the
outputs in order of declaration.
-/

namespace RecipeNet

structure OutputMap where
  outputs : List (String × Nat)
deriving DecidableEq, Repr, Inhabited

namespace OutputMap

def none : OutputMap := ⟨[]⟩

def explicit? (results : ResultMap) (place : PlaceSpec) : Option Nat :=
  match results.get? place.id with
  | some output => some output.toNat
  | .none => (place.label.bind results.get?).map UInt64.toNat

def entry? (results : ResultMap) (position : Nat) (place : PlaceSpec) : Option (String × Nat) :=
  let output := if results.isEmpty then some position else explicit? results place
  output.map (place.id, ·)

def of (plan : Plan) (results : ResultMap) : OutputMap :=
  ⟨plan.terminals.zipIdx.filterMap fun (place, position) => entry? results position place⟩

/-- The output of a terminal place. Of entries with one id the last counts. -/
def output? (m : OutputMap) (place : String) : Option Nat :=
  m.outputs.reverse.lookup place

end OutputMap
end RecipeNet
