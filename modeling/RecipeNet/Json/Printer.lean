import RecipeNet.Json.Number

/-!
JSON text of a value, on one line or with two blanks of indentation a level.
Texts escape the quote, the backslash and the characters below U+0020, five of
which have a short form.
-/

namespace RecipeNet.Json

open Text

def escape (c : Char) : List Char :=
  if c = '"' then ['\\', '"']
  else if c = '\\' then ['\\', '\\']
  else if c = '\n' then ['\\', 'n']
  else if c = '\r' then ['\\', 'r']
  else if c = '\t' then ['\\', 't']
  else if c = '\x08' then ['\\', 'b']
  else if c = '\x0c' then ['\\', 'f']
  else if c.toNat < 32 then '\\' :: 'u' :: hexDigits 4 c.toNat
  else [c]

def quote (s : String) : List Char :=
  '"' :: (s.toList.flatMap escape ++ ['"'])

def scalarChars : Json → List Char
  | .null => ['n', 'u', 'l', 'l']
  | .bool true => ['t', 'r', 'u', 'e']
  | .bool false => ['f', 'a', 'l', 's', 'e']
  | .int n => Number.renderInt n
  | .float bits => Number.renderFloat bits
  | .str s => quote s
  | .arr _ | .obj _ => []

mutual
def compactChars : Json → List Char
  | .arr items => '[' :: (compactItems items ++ [']'])
  | .obj fields => '\x7b' :: (compactFields fields ++ ['\x7d'])
  | v => scalarChars v

def compactItems : List Json → List Char
  | [] => []
  | [v] => compactChars v
  | v :: w :: rest => compactChars v ++ ',' :: compactItems (w :: rest)

def compactFields : List (String × Json) → List Char
  | [] => []
  | [(k, v)] => quote k ++ ':' :: compactChars v
  | (k, v) :: f :: rest => quote k ++ ':' :: (compactChars v ++ ',' :: compactFields (f :: rest))
end

def newline (level : Nat) : List Char :=
  '\n' :: List.replicate (2 * level) ' '

mutual
def prettyChars (level : Nat) : Json → List Char
  | .arr [] => ['[', ']']
  | .arr (v :: rest) => '[' :: (prettyItems (level + 1) (v :: rest) ++ newline level ++ [']'])
  | .obj [] => ['\x7b', '\x7d']
  | .obj (f :: rest) =>
    '\x7b' :: (prettyFields (level + 1) (f :: rest) ++ newline level ++ ['\x7d'])
  | v => scalarChars v

def prettyItems (level : Nat) : List Json → List Char
  | [] => []
  | [v] => newline level ++ prettyChars level v
  | v :: w :: rest => newline level ++ prettyChars level v ++ ',' :: prettyItems level (w :: rest)

def prettyFields (level : Nat) : List (String × Json) → List Char
  | [] => []
  | [(k, v)] => newline level ++ quote k ++ ':' :: ' ' :: prettyChars level v
  | (k, v) :: f :: rest =>
    newline level ++ quote k ++ ':' :: ' ' ::
      (prettyChars level v ++ ',' :: prettyFields level (f :: rest))
end

def compact (v : Json) : String :=
  String.ofList v.compactChars

def pretty (v : Json) : String :=
  String.ofList (v.prettyChars 0)

end RecipeNet.Json
