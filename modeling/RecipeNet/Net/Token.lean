import RecipeNet.Json.Basic
import RecipeNet.Net.TokenId

/-!
Tokens: the work items that move through a net. A split token keeps the token
it was made from, and tokens are the same when their identities are.
-/

namespace RecipeNet

structure Token where
  id : TokenId
  /-- What it carries itself. -/
  payload : Option Json
  /-- The token it is a sibling of, if it comes from a split. -/
  parent : Option Token

instance : Inhabited Token := ⟨⟨⟨0⟩, none, none⟩⟩

namespace Token

/-- What a token carries, itself or through the token it was made from. -/
def effectivePayload : Token → Option Json
  | ⟨_, some payload, _⟩ => some payload
  | ⟨_, none, some parent⟩ => effectivePayload parent
  | ⟨_, none, none⟩ => none

def isSplit (t : Token) : Bool :=
  t.parent.isSome

def same (a b : Token) : Bool :=
  a.id == b.id

def ancestry : Token → List Token
  | ⟨_, _, some parent⟩ => parent :: ancestry parent
  | ⟨_, _, none⟩ => []

def text (t : Token) : String :=
  match t.parent with
  | some parent => t.id.text ++ " (split of " ++ parent.id.text ++ ")"
  | none => t.id.text

def logText (t : Token) : String :=
  let parent := match t.parent with
    | some parent => ", original: TokenId(" ++ parent.id.text ++ ")"
    | none => ""
  "Token \x7b id: TokenId(" ++ t.id.text ++ ")" ++ parent ++ " \x7d"

end Token

/-- The identities that new tokens get: a sequence, and how many of it have
been used. -/
structure Supply where
  draw : Nat → TokenId
  used : Nat := 0

namespace Supply

def next (s : Supply) : TokenId × Supply :=
  (s.draw s.used, { s with used := s.used + 1 })

def take (s : Supply) (count : Nat) : List TokenId × Supply :=
  ((List.range count).map fun i => s.draw (s.used + i), { s with used := s.used + count })

end Supply
end RecipeNet
