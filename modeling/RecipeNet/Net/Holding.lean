import RecipeNet.Net.Event
import RecipeNet.Net.Fault

/-!
Places with the tokens they hold. A token may be held several times; taking
one out puts the last token into its position.
-/

namespace RecipeNet

structure Holding where
  place : PlaceSpec
  tokens : List Token
deriving Inhabited

namespace Holding

def new (place : PlaceSpec) : Holding := ⟨place, []⟩

def isTerminal (h : Holding) : Bool := h.place.isTerminal

def holds (h : Holding) (t : Token) : Bool := h.tokens.any (·.same t)

def add (h : Holding) (t : Token) : Holding := { h with tokens := h.tokens ++ [t] }

/-- A list without the element at an index, whose position the last element
takes. -/
def swapRemove (ts : List Token) (i : Nat) : List Token :=
  match ts.getLast? with
  | some last => (ts.set i last).dropLast
  | none => []

def remove (h : Holding) (t : Token) : Except Fault Holding :=
  match h.tokens.findIdx? (·.same t) with
  | some i => .ok { h with tokens := swapRemove h.tokens i }
  | none => .error (.tokenNotHeld h.place.id t.id)

end Holding
end RecipeNet
