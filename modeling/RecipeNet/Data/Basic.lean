import RecipeNet.Json.Basic

/-!
Self-describing values, as a document presents them before it is known what
they stand for, and the rules by which records are read from them: a record is
a map from field names to values, or a sequence of the values in the order of
the fields.
-/

namespace RecipeNet

/-- A value of a document. The keys of a map are values themselves and may
repeat. `broken` is a piece of text that has the form of a value but no
meaning, such as a number too large for a double. -/
inductive Data where
  | null
  | bool (b : Bool)
  | int (n : Int)
  | float (bits : UInt64)
  | str (s : String)
  | seq (items : List Data)
  | map (entries : List (Data × Data))
  | broken
deriving Inhabited, Repr

namespace Data

mutual
def ofJson : Json → Data
  | .null => .null
  | .bool b => .bool b
  | .int n => .int n
  | .float bits => .float bits
  | .str s => .str s
  | .arr items => .seq (ofItems items)
  | .obj fields => .map (ofFields fields)

def ofItems : List Json → List Data
  | [] => []
  | v :: rest => ofJson v :: ofItems rest

def ofFields : List (String × Json) → List (Data × Data)
  | [] => []
  | (k, v) :: rest => (.str k, ofJson v) :: ofFields rest
end

mutual
/-- The JSON value that a document value is, if all its keys are texts and
nothing in it is broken. Fields are put in order of name; of several with one
name the last counts. -/
def toJson? : Data → Option Json
  | .null => some .null
  | .bool b => some (.bool b)
  | .int n => some (.int n)
  | .float bits => some (.float bits)
  | .str s => some (.str s)
  | .seq items => (toItems? items).map .arr
  | .map entries => (toFields? entries []).map .obj
  | .broken => none

def toItems? : List Data → Option (List Json)
  | [] => some []
  | v :: rest => do
    let head ← toJson? v
    let tail ← toItems? rest
    some (head :: tail)

def toFields? : List (Data × Data) → List (String × Json) → Option (List (String × Json))
  | [], fields => some fields
  | (.str k, v) :: rest, fields => do
    let w ← toJson? v
    toFields? rest (Json.insertField k w fields)
  | _ :: _, _ => none
end

mutual
def depth : Data → Nat
  | .seq items => 1 + depthItems items
  | .map entries => 1 + depthEntries entries
  | _ => 0

def depthItems : List Data → Nat
  | [] => 0
  | v :: rest => max (depth v) (depthItems rest)

def depthEntries : List (Data × Data) → Nat
  | [] => 0
  | (k, v) :: rest => max (max (depth k) (depth v)) (depthEntries rest)
end

mutual
def sound : Data → Bool
  | .seq items => soundItems items
  | .map entries => soundEntries entries
  | .broken => false
  | _ => true

def soundItems : List Data → Bool
  | [] => true
  | v :: rest => sound v && soundItems rest

def soundEntries : List (Data × Data) → Bool
  | [] => true
  | (k, v) :: rest => sound k && sound v && soundEntries rest
end

def str? : Data → Option String
  | .str s => some s
  | _ => none

def nat? (bound : Nat) : Data → Option Nat
  | .int n => if 0 ≤ n ∧ n.toNat < bound then some n.toNat else none
  | _ => none

/-- The optional text that a value is: null stands for none. -/
def optionalStr? : Data → Option (Option String)
  | .null => some none
  | .str s => some (some s)
  | _ => none

def strs? : Data → Option (List String)
  | .seq items => items.mapM str?
  | _ => none

/-- Which field of a record a key names: its text, or its position. -/
def fieldOf? (names : List String) : Data → Option String
  | .str s => if s ∈ names then some s else none
  | .int n => if 0 ≤ n then names[n.toNat]? else none
  | _ => none

def isKey : Data → Bool
  | .str _ => true
  | .int n => 0 ≤ n
  | _ => false

/-- The values of a record's fields as they were found, each name at most
once. -/
abbrev Fields := List (String × Data)

def Fields.get? (fields : Fields) (name : String) : Option Data :=
  fields.lookup name

/-- The fields that the entries of a map give to a record. Entries for no
field are passed over; two for one field are refused, and so are keys that
name nothing. -/
def fieldsOfEntries? (names : List String) : List (Data × Data) → Option Fields
  | [] => some []
  | (k, v) :: rest => do
    let found ← fieldsOfEntries? names rest
    if !k.isKey then none
    else
      match fieldOf? names k with
      | none => some found
      | some name => if (found.get? name).isSome then none else some ((name, v) :: found)

/-- The fields that a map or a sequence gives to a record. A sequence may end
early but not late. -/
def fields? (names : List String) : Data → Option Fields
  | .map entries => fieldsOfEntries? names entries
  | .seq items => if items.length ≤ names.length then some (names.zip items) else none
  | _ => none

def Fields.required {α : Type} (fields : Fields) (name : String) (read : Data → Option α) :
    Option α := do
  let v ← fields.get? name
  read v

def Fields.optional {α : Type} (fields : Fields) (name : String) (default : α)
    (read : Data → Option α) : Option α :=
  match fields.get? name with
  | none => some default
  | some v => read v

/-- Which of several alternatives a value names, by its text or, where
`numbered`, by its position. -/
def choice? (numbered : Bool) (names : List String) : Data → Option String
  | .str s => if s ∈ names then some s else none
  | .int n => if numbered ∧ 0 ≤ n then names[n.toNat]? else none
  | _ => none

end Data
end RecipeNet
