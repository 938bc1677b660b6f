import RecipeNet.Net.Address
import RecipeNet.Net.Token

/-!
What a net reports: firings, activities that have begun outside of it, and its
completion. Reports from a nested net pass through the step that runs it.
-/

namespace RecipeNet

inductive Event where
  | fired (step : Address)
  | started (step : Address) (activity : String) (token : Token)
  | completed (place : String) (token : Token)
deriving Inhabited

/-- A report of a nested net as the enclosing step passes it on. Completion is
the step's own business and goes no further. -/
def Event.within (outer : String) : Event → Option Event
  | .fired step => some (.fired (step.within outer))
  | .started step activity token => some (.started (step.within outer) activity token)
  | .completed _ _ => none

end RecipeNet
