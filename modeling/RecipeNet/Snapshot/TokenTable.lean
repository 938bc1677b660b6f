import RecipeNet.Net.Fault
import RecipeNet.Net.Token
import RecipeNet.Snapshot.Basic

/-!
The token table of a snapshot. Writing it enters every token once and after the
token it was split from; reading it follows the chains of parents, which have
to end within the table.
-/

namespace RecipeNet.TokenTable

def recordOf (t : Token) : TokenRecord :=
  ⟨t.id, t.payload, t.parent.map (·.id)⟩

/-- Enters a record unless there is one for its identity. -/
def enter (records : List TokenRecord) (r : TokenRecord) : List TokenRecord :=
  if records.any (·.id == r.id) then records else records ++ [r]

/-- Enters a token after those it was made from. -/
def register (records : List TokenRecord) : Token → List TokenRecord
  | ⟨id, payload, some parent⟩ =>
    enter (register records parent) (recordOf ⟨id, payload, some parent⟩)
  | ⟨id, payload, none⟩ => enter records (recordOf ⟨id, payload, none⟩)

def registerAll (records : List TokenRecord) (ts : List Token) : List TokenRecord :=
  ts.foldl register records

/-- The record of an identity. Of several the last counts. -/
def find? (records : List TokenRecord) (id : TokenId) : Option TokenRecord :=
  records.reverse.find? (·.id == id)

def size (records : List TokenRecord) : Nat :=
  (records.map (·.id)).eraseDups.length

/-- The token of an identity, whose chain of parents has at most as many
members as `fuel` says. -/
def rebuild (records : List TokenRecord) : Nat → TokenId → Except Mismatch Token
  | 0, id => .error (.cyclic id)
  | fuel + 1, id =>
    match find? records id with
    | none => .error (.missing id)
    | some r =>
      match r.parent with
      | none => .ok ⟨id, r.payload, none⟩
      | some parent =>
        (rebuild records fuel parent).map fun parent => ⟨id, r.payload, some parent⟩

/-- The tokens of a table. A chain longer than the table has a cycle. -/
def tokens (records : List TokenRecord) : Except Mismatch (List Token) :=
  records.mapM fun r => rebuild records (size records + 1) r.id

def resolve (tokens : List Token) (id : TokenId) : Except Mismatch Token :=
  match tokens.find? (·.id == id) with
  | some t => .ok t
  | none => .error (.missing id)

end RecipeNet.TokenTable
