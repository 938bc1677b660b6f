import RecipeNet.Data.Misfit
import RecipeNet.Plan.Document

/-!
What keeps a document from describing a plan.
-/

namespace RecipeNet.Data

def roleNames : List String := ["normal", "start", "end"]

def roleMisfit? (within : Bool) : Data → Option Misfit
  | .str s => choiceMisfit? roleNames (.str s)
  | .map [(k, v)] =>
    match choiceMisfit? roleNames k, v with
    | some m, _ => some m
    | none, .null => none
    | none, .map [] => if within then none else some (.wrongType v "unit")
    | none, v => some (.wrongType v "unit")
  | .map entries => some (.wrongValue (.map entries) "map with a single key")
  | v => some (.wrongType v "string or map")

def placeSpecMisfit? (within : Bool) : Data → Option Misfit :=
  recordMisfit? within "struct PlaceDef" ["id", "role", "classification"] ["id"] fun name v =>
    match name with
    | "id" => v.strMisfit?
    | "role" => v.roleMisfit? within
    | _ => v.optionalStrMisfit?

def resultMapMisfit? : Data → Option Misfit
  | .map entries => entries.findSome? fun (k, v) => k.strMisfit?.or (v.natMisfit? (Nat.pow 2 64) "usize")
  | v => some (.wrongType v "a map")

def stepKindMisfitWith? (planMisfit : Data → Option Misfit) (entries : List (Data × Data)) :
    Option Misfit :=
  let isKind : Data × Data → Bool := fun e => isNamed ["kind"] e.1
  match entries.find? isKind with
  | none => some (.missingField "kind")
  | some (_, v) =>
    match choiceMisfit? kindNames v with
    | some m => some m
    | none =>
      let fields (names required : List String) (check : String → Data → Option Misfit) :=
        recordMisfit? true "" names required check (.map (entries.filter (!isKind ·)))
      match choice? true kindNames v with
      | some "pass" => fields ["output"] [] fun _ v => v.natMisfit? (Nat.pow 2 64) "usize"
      | some "sub_workflow" =>
        fields ["workplan", "results"] ["workplan"] fun name v =>
          if name = "workplan" then planMisfit v else v.resultMapMisfit?
      | some "task" => fields ["activity"] ["activity"] fun _ v => v.strMisfit?
      | _ => none

def stepSpecMisfitWith? (planMisfit : Data → Option Misfit) : Data → Option Misfit
  | .map entries =>
    let own := entries.filter fun e => isNamed stepNames e.1
    let others := entries.filter fun e => !isNamed stepNames e.1
    let check : String → Data → Option Misfit := fun name v =>
      match name with
      | "id" => v.strMisfit?
      | "name" => v.optionalStrMisfit?
      | _ => v.seqMisfit? strMisfit?
    (recordMisfit? true "" stepNames ["id"] check (.map own)).or
      (stepKindMisfitWith? planMisfit others)
  | v => some (.wrongType v "struct StepDef")

def planMisfitWithin? : Nat → Bool → Data → Option Misfit
  | 0, _, _ => none
  | fuel + 1, within, v =>
    recordMisfit? within "struct Workplan" ["id", "version", "places", "steps"] ["id"] (fun name v =>
      match name with
      | "id" => v.strMisfit?
      | "version" => v.natMisfit? (Nat.pow 2 32) "u32"
      | "places" => v.seqMisfit? (placeSpecMisfit? within)
      | _ => v.seqMisfit? (stepSpecMisfitWith? (planMisfitWithin? fuel true))) v

def planMisfit? (v : Data) : Option Misfit :=
  planMisfitWithin? (v.rank + 1) false v

end RecipeNet.Data
