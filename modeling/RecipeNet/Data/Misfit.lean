import RecipeNet.Data.Basic
import RecipeNet.Json.Number

/-!
What keeps a document value from being read as something, in words. Of several
misfits the one that reading meets first is given: the fields of a record are
taken as they come, and absent ones are missed at the end.
-/

namespace RecipeNet

inductive Misfit where
  | wrongType (found : Data) (expected : String)
  | wrongValue (found : Data) (expected : String)
  | wrongLength (length : Nat) (expected : String)
  | unknownVariant (name : String) (known : List String)
  | missingField (name : String)
  | duplicateField (name : String)
deriving Repr

namespace Misfit

open Text

def escape (c : Char) : List Char :=
  if c = '"' then ['\\', '"']
  else if c = '\\' then ['\\', '\\']
  else if c = '\n' then ['\\', 'n']
  else if c = '\r' then ['\\', 'r']
  else if c = '\t' then ['\\', 't']
  else if c = '\x00' then ['\\', '0']
  else if c.toNat < 32 || (127 ≤ c.toNat && c.toNat < 160) then
    ['\\', 'u', '\x7b'] ++ Nat.toDigits 16 c.toNat ++ ['\x7d']
  else [c]

def quoted (name : String) : String := "`" ++ name ++ "`"

def describe : Data → String
  | .null => "null"
  | .bool b => "boolean " ++ quoted (if b then "true" else "false")
  | .int n => "integer " ++ quoted (toString n)
  | .float bits => "floating point " ++ quoted (String.ofList (Json.Number.renderFloat bits))
  | .str s => "string \"" ++ String.ofList (s.toList.flatMap escape) ++ "\""
  | .seq _ => "sequence"
  | .map _ => "map"
  | .broken => "value"

def alternatives : List String → String
  | [] => ""
  | [name] => quoted name
  | name :: next :: rest => quoted name ++ ", " ++ alternatives (next :: rest)

def message : Misfit → String
  | .wrongType found expected => "invalid type: " ++ describe found ++ ", expected " ++ expected
  | .wrongValue found expected => "invalid value: " ++ describe found ++ ", expected " ++ expected
  | .wrongLength length expected => "invalid length " ++ toString length ++ ", expected " ++ expected
  | .unknownVariant name known =>
    "unknown variant " ++ quoted name ++ ", expected one of " ++ alternatives known
  | .missingField name => "missing field " ++ quoted name
  | .duplicateField name => "duplicate field " ++ quoted name

end Misfit

namespace Data

def strMisfit? : Data → Option Misfit
  | .str _ => none
  | v => some (.wrongType v "a string")

def optionalStrMisfit? : Data → Option Misfit
  | .null => none
  | v => v.strMisfit?

def natMisfit? (bound : Nat) (type : String) : Data → Option Misfit
  | .int n => if 0 ≤ n ∧ n.toNat < bound then none else some (.wrongValue (.int n) type)
  | v => some (.wrongType v type)

def seqMisfit? (item : Data → Option Misfit) : Data → Option Misfit
  | .seq items => items.findSome? item
  | v => some (.wrongType v "a sequence")

/-- The first misfit among the entries of a record, where `seen` are the fields
before them. -/
def entriesMisfit? (names : List String) (check : String → Data → Option Misfit) (seen : List String) :
    List (Data × Data) → Option Misfit
  | [] => none
  | (k, v) :: rest =>
    match fieldOf? names k with
    | none => entriesMisfit? names check seen rest
    | some name =>
      if name ∈ seen then some (.duplicateField name)
      else
        match check name v with
        | some m => some m
        | none => entriesMisfit? names check (name :: seen) rest

def missingField? (names required : List String) (entries : List (Data × Data)) : Option Misfit :=
  let present := entries.filterMap fun e => fieldOf? names e.1
  (required.find? (· ∉ present)).map .missingField

def tooLong (within : Bool) (count : Nat) : String :=
  if !within then "fewer elements in array"
  else if count = 1 then "1 element in sequence"
  else toString count ++ " elements in sequence"

def recordMisfit? (within : Bool) (type : String) (names required : List String)
    (check : String → Data → Option Misfit) : Data → Option Misfit
  | .map entries => (entriesMisfit? names check [] entries).or (missingField? names required entries)
  | .seq items =>
    let short := (names.drop items.length).find? (· ∈ required)
    ((names.zip items).findSome? fun (name, v) => check name v).or
      ((short.map fun name => .wrongLength (names.idxOf name)
        (type ++ " with " ++ toString names.length ++ " elements")).or
        (if names.length < items.length then
          some (.wrongLength items.length (tooLong within names.length)) else none))
  | v => some (.wrongType v type)

def choiceMisfit? (names : List String) : Data → Option Misfit
  | .str s => if s ∈ names then none else some (.unknownVariant s names)
  | .int n =>
    if n < 0 then some (.wrongType (.int n) "variant identifier")
    else if n.toNat < names.length then none
    else some (.wrongValue (.int n) ("variant index 0 <= i < " ++ toString names.length))
  | v => some (.wrongType v "variant identifier")

end Data
end RecipeNet
