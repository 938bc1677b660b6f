import Mathlib.Data.List.Forall2
import RecipeNet.Proofs.Json.Data
import RecipeNet.Proofs.Yaml.Scalars

/-!
Nodes that hold documents. If the text of a node is read as the node again, up to the styles of its
scalars, the node that is read holds the same document, whether it is read as a value or part by
part.
-/

namespace RecipeNet
namespace Yaml

def sameValue (style style' : Style) (s : String) : Bool :=
  (style == .plain) == (style' == .plain) || (plainValue? s).bind Data.str? == some s

mutual
/-- Whether a node is another one again: it has the same parts and the same scalars, in styles that
give them the same values, and nothing is tagged. -/
def Node.restores : Node → Node → Bool
  | .scalar _ none style s, .scalar _ none style' s' => s == s' && sameValue style style' s
  | .seq _ none items, .seq _ none items' => restoresItems items items'
  | .map _ none entries, .map _ none entries' => restoresEntries entries entries'
  | _, _ => false

def Node.restoresItems : List Node → List Node → Bool
  | [], [] => true
  | n :: rest, n' :: rest' => restores n n' && restoresItems rest rest'
  | _, _ => false

def Node.restoresEntries : List (Node × Node) → List (Node × Node) → Bool
  | [], [] => true
  | (k, v) :: rest, (k', v') :: rest' => restores k k' && restores v v' && restoresEntries rest rest'
  | _, _ => false
end

theorem scalarValue?_same {style style' : Style} {s : String} (same : sameValue style style' s = true)
    (written : scalarValue? none style' s = some (.str s)) :
    scalarValue? none style s = some (.str s) := by
  rw [sameValue, Bool.or_eq_true, beq_iff_eq, beq_iff_eq] at same
  rw [scalarValue?_untagged] at written ⊢
  rcases same with hplain | hvalue
  · have hboth : style = .plain ↔ style' = .plain := by
      rw [← beq_iff_eq, hplain, beq_iff_eq]
    rw [if_congr hboth rfl rfl, written]
  · obtain ⟨v, hv, hstr⟩ := Option.bind_eq_some_iff.1 hvalue
    cases v with
    | str t =>
      obtain rfl : t = s := Option.some.inj hstr
      rw [hv, ite_self]
    | _ => cases hstr

theorem restoresItems_iff {ns ns' : List Node} :
    Node.restoresItems ns ns' = true ↔ List.Forall₂ (fun n n' => n.restores n' = true) ns ns' := by
  induction ns generalizing ns' with
  | nil => cases ns' <;> simp [Node.restoresItems]
  | cons n rest ih => cases ns' <;> simp [Node.restoresItems, ih]

theorem restoresEntries_iff {entries entries' : List (Node × Node)} :
    Node.restoresEntries entries entries' = true ↔ List.Forall₂
      (fun e e' => e.1.restores e'.1 = true ∧ e.2.restores e'.2 = true) entries entries' := by
  induction entries generalizing entries' with
  | nil => cases entries' <;> simp [Node.restoresEntries]
  | cons e rest ih => cases entries' <;> simp [Node.restoresEntries, ih, and_assoc]

mutual
/-- A node has a document for its value: texts, numbers that no sign is needed for, and lists and
records of such. -/
def Node.Holds : Json → Node → Prop
  | .str s, .scalar _ none style t => t = s ∧ scalarValue? none style s = some (.str s)
  | .int n, .scalar _ none .plain t => ∃ k : Nat, n = k ∧ k < 2 ^ 64 ∧ t = toString k
  | .arr items, .seq _ none ns => HoldsItems items ns
  | .obj fields, .map _ none entries => HoldsFields fields entries
  | _, _ => False

def Node.HoldsItems : List Json → List Node → Prop
  | [], [] => True
  | v :: rest, n :: ns => Holds v n ∧ HoldsItems rest ns
  | _, _ => False

def Node.HoldsFields : List (String × Json) → List (Node × Node) → Prop
  | [], [] => True
  | (name, v) :: rest, (k, n) :: entries => Holds (.str name) k ∧ Holds v n ∧ HoldsFields rest entries
  | _, _ => False
end

namespace Node

variable {n m : Node} {v : Json}

theorem holdsItems_iff {items : List Json} {ns : List Node} :
    HoldsItems items ns ↔ List.Forall₂ Holds items ns := by
  induction items generalizing ns with
  | nil => cases ns <;> simp [HoldsItems]
  | cons v rest ih => cases ns <;> simp [HoldsItems, ih]

def HoldsField (field : String × Json) (entry : Node × Node) : Prop :=
  Holds (.str field.1) entry.1 ∧ Holds field.2 entry.2

theorem holdsFields_iff {fields : List (String × Json)} {entries : List (Node × Node)} :
    HoldsFields fields entries ↔ List.Forall₂ HoldsField fields entries := by
  induction fields generalizing entries with
  | nil => cases entries <;> simp [HoldsFields]
  | cons f rest ih => cases entries <;> simp [HoldsFields, HoldsField, ih, and_assoc]

theorem holds_str {s : String} (h : Holds (.str s) n) :
    ∃ anchor style, n = .scalar anchor none style s ∧ scalarValue? none style s = some (.str s) := by
  match n, h with
  | .scalar anchor none style t, h =>
    obtain ⟨rfl, hvalue⟩ : t = s ∧ scalarValue? none style s = some (.str s) := by
      simpa only [Holds] using h
    exact ⟨anchor, style, rfl, hvalue⟩

theorem holds_int {i : Int} (h : Holds (.int i) n) :
    ∃ anchor, ∃ k : Nat, i = k ∧ k < 2 ^ 64 ∧ n = .scalar anchor none .plain (toString k) := by
  match n, h with
  | .scalar anchor none .plain t, h =>
    obtain ⟨k, rfl, hlt, rfl⟩ : ∃ k : Nat, i = k ∧ k < 2 ^ 64 ∧ t = toString k := by
      simpa only [Holds] using h
    exact ⟨anchor, k, rfl, hlt, rfl⟩

theorem holds_arr {items : List Json} (h : Holds (.arr items) n) :
    ∃ anchor ns, n = .seq anchor none ns ∧ List.Forall₂ Holds items ns := by
  match n, h with
  | .seq anchor none ns, h => exact ⟨anchor, ns, rfl, holdsItems_iff.1 (by simpa only [Holds] using h)⟩

theorem holds_obj {fields : List (String × Json)} (h : Holds (.obj fields) n) :
    ∃ anchor entries, n = .map anchor none entries ∧ List.Forall₂ HoldsField fields entries := by
  match n, h with
  | .map anchor none entries, h =>
    exact ⟨anchor, entries, rfl, holdsFields_iff.1 (by simpa only [Holds] using h)⟩

/-- A node that holds a document is a scalar with its value, or a list or a record. -/
theorem holds_cases (h : n.Holds v) :
    (∃ anchor style s, n = .scalar anchor none style s ∧
      scalarValue? none style s = some (Data.ofJson v) ∧ (Data.ofJson v).depth = 0) ∨
    (∃ items anchor ns, v = .arr items ∧ n = .seq anchor none ns ∧ List.Forall₂ Holds items ns) ∨
    ∃ fields anchor entries, v = .obj fields ∧ n = .map anchor none entries ∧
      List.Forall₂ HoldsField fields entries := by
  cases v with
  | str s =>
    obtain ⟨anchor, style, rfl, hvalue⟩ := holds_str h
    exact .inl ⟨anchor, style, s, rfl, hvalue, rfl⟩
  | int i =>
    obtain ⟨anchor, k, rfl, hlt, rfl⟩ := holds_int h
    exact .inl ⟨anchor, .plain, toString k, rfl, plainValue?_toString hlt, rfl⟩
  | arr items =>
    obtain ⟨anchor, ns, rfl, hns⟩ := holds_arr h
    exact .inr (.inl ⟨items, anchor, ns, rfl, rfl, hns⟩)
  | obj fields =>
    obtain ⟨anchor, entries, rfl, hentries⟩ := holds_obj h
    exact .inr (.inr ⟨fields, anchor, entries, rfl, rfl, hentries⟩)
  | null | bool | float => simp only [Holds] at h

theorem resolve_of_holds (h : n.Holds v) : resolve n = pure n := by
  obtain ⟨_, _, _, rfl, -⟩ | ⟨_, _, _, -, rfl, -⟩ | ⟨_, _, _, -, rfl, -⟩ := holds_cases h
  all_goals rfl

end Node

/-! ### Values -/

theorem lift_map {α β : Type} (o : Option α) (g : α → β) :
    (do let x ← StateT.lift o; pure (g x) : Reading β) = StateT.lift (o.map g) := by
  funext f
  cases o <;> rfl

/-- What is read of each of several nodes is read of all of them. -/
theorem mapM_of_each {α β γ : Type} {read : β → Reading γ} {value : α → Option γ} {vs : List α}
    {ns : List β} (each : List.Forall₂ (fun v n => read n = StateT.lift (value v)) vs ns) :
    ns.mapM read = StateT.lift (vs.mapM value) := by
  induction each with
  | nil => rfl
  | @cons v n vs ns hread _ ih =>
    rw [List.mapM_cons, List.mapM_cons, hread, ih]
    funext f
    cases value v with
    | none => rfl
    | some x => cases vs.mapM value <;> rfl

theorem mapM_pure_of_each {α β : Type} {read : β → Reading α} {xs : List α} {ns : List β}
    (each : List.Forall₂ (fun x n => read n = pure x) xs ns) : ns.mapM read = pure xs := by
  induction each with
  | nil => rfl
  | cons hread _ ih => rw [List.mapM_cons, hread, ih, pure_bind, pure_bind]

theorem mapM_guarded {α β : Type} (p : α → Prop) [DecidablePred p] (g : α → β) (vs : List α) :
    vs.mapM (fun v => if p v then some (g v) else none) =
      if ∀ v ∈ vs, p v then some (vs.map g) else none := by
  induction vs with
  | nil => rfl
  | cons v rest ih =>
    rw [List.mapM_cons, ih]
    by_cases hv : p v
    · by_cases hrest : ∀ w ∈ rest, p w
      · rw [if_pos hv, if_pos hrest, if_pos (List.forall_mem_cons.2 ⟨hv, hrest⟩)]
        rfl
      · rw [if_pos hv, if_neg hrest, if_neg fun hall => hrest (List.forall_mem_cons.1 hall).2]
        rfl
    · rw [if_neg hv, if_neg fun hall => hv (List.forall_mem_cons.1 hall).1]
      rfl

/-- The value that a document has if at most `depth` of its collections are open. -/
def shallow? (depth : Nat) (v : Json) : Option Data :=
  if (Data.ofJson v).depth ≤ depth then some (Data.ofJson v) else none

theorem shallow?_arr (depth : Nat) (items : List Json) :
    shallow? (depth + 1) (.arr items) = (items.mapM (shallow? depth)).map .seq := by
  have hdepth : (Data.ofJson (.arr items)).depth ≤ depth + 1 ↔
      ∀ v ∈ items, (Data.ofJson v).depth ≤ depth := by
    simpa using @Data.depth_list_le Json id items depth
  have hparts : items.mapM (shallow? depth) = _ := mapM_guarded _ Data.ofJson items
  rw [hparts, apply_ite (Option.map _), shallow?, if_congr hdepth rfl rfl, Data.ofJson_arr]
  rfl

def shallowField? (depth : Nat) (f : String × Json) : Option (Data × Data) :=
  if (Data.ofJson f.2).depth ≤ depth then some (.str f.1, Data.ofJson f.2) else none

theorem shallow?_obj (depth : Nat) (fields : List (String × Json)) :
    shallow? (depth + 1) (.obj fields) = (fields.mapM (shallowField? depth)).map .map := by
  have hparts : fields.mapM (shallowField? depth) = _ := mapM_guarded _ _ fields
  rw [hparts, apply_ite (Option.map _), shallow?, if_congr Data.depth_obj_le rfl rfl,
    Data.ofJson_obj]
  rfl

theorem valueOf_scalar (depth : Nat) (anchor : Option Nat) (tag : Option String) (style : Style)
    (s : String) :
    valueOf depth (.scalar anchor tag style s) = StateT.lift (scalarValue? tag style s) := by
  cases depth <;> rfl

theorem valueOf_seq (depth : Nat) (anchor : Option Nat) (ns : List Node) :
    valueOf (depth + 1) (.seq anchor none ns) = (do
      let values ← ns.mapM (valueOf depth)
      pure (.seq values)) :=
  rfl

def entryOf (depth : Nat) (e : Node × Node) : Reading (Data × Data) := do
  let k ← valueOf depth e.1
  let v ← valueOf depth e.2
  pure (k, v)

theorem valueOf_map (depth : Nat) (anchor : Option Nat) (entries : List (Node × Node)) :
    valueOf (depth + 1) (.map anchor none entries) = (do
      let values ← entries.mapM (entryOf depth)
      pure (.map values)) :=
  rfl

/-- The value of a node that holds a document is the document, if no more of it is open than may
be. -/
theorem valueOf_of_holds {depth : Nat} {v : Json} {n : Node} (h : n.Holds v) :
    valueOf depth n = StateT.lift (shallow? depth v) := by
  induction depth generalizing v n with
  | zero =>
    obtain ⟨anchor, style, s, rfl, hvalue, hflat⟩ | ⟨items, anchor, ns, rfl, rfl, -⟩ |
      ⟨fields, anchor, entries, rfl, rfl, -⟩ := Node.holds_cases h
    · rw [valueOf_scalar, hvalue, shallow?, if_pos (Nat.le_of_eq hflat)]
    · rw [shallow?, if_neg (by simp [Data.ofJson, Data.depth])]
      rfl
    · rw [shallow?, if_neg (by simp [Data.ofJson, Data.depth])]
      rfl
  | succ depth ih =>
    obtain ⟨anchor, style, s, rfl, hvalue, hflat⟩ | ⟨items, anchor, ns, rfl, rfl, hns⟩ |
      ⟨fields, anchor, entries, rfl, rfl, hentries⟩ := Node.holds_cases h
    · rw [valueOf_scalar, hvalue, shallow?, if_pos (hflat ▸ Nat.zero_le _)]
    · rw [valueOf_seq, mapM_of_each (hns.imp fun _ _ => ih), lift_map, shallow?_arr]
    · have hentry : ∀ f e, Node.HoldsField f e →
          entryOf depth e = StateT.lift (shallowField? depth f) := by
        intro f e he
        have hname : shallow? depth (.str f.1) = some (.str f.1) := if_pos (Nat.zero_le _)
        rw [entryOf, ih he.1, ih he.2, hname]
        unfold shallow? shallowField?
        split <;> rfl
      rw [valueOf_map, mapM_of_each (hentries.imp hentry), lift_map, shallow?_obj]

end Yaml
end RecipeNet
