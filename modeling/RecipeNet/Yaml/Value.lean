import RecipeNet.Data.Basic
import RecipeNet.Json.Number
import RecipeNet.Yaml.Node

/-!
What YAML scalars stand for, and nodes as document values. Plain scalars are
null, booleans and numbers where they look like them. Aliases are followed
where a value is asked for, within a limit that grows with the document.
-/

namespace RecipeNet.Yaml

open Text

def isNullText (cs : String) : Bool :=
  cs ∈ ["null", "Null", "NULL", "~"]

def boolOf? (s : String) : Option Bool :=
  if s ∈ ["true", "True", "TRUE"] then some true
  else if s ∈ ["false", "False", "FALSE"] then some false
  else none

def digitIn? (base : Nat) (c : Char) : Option Nat :=
  (hexValue? c).filter (· < base)

def digitsIn? (base : Nat) (cs : List Char) : Option Nat :=
  if cs.isEmpty then none
  else cs.foldlM (fun n c => (digitIn? base c).map (base * n + ·)) 0

def hasLeadingZero (cs : List Char) : Bool :=
  let cs := match cs with
    | '-' :: rest => rest
    | '+' :: rest => rest
    | _ => cs
  match cs with
  | '0' :: c :: rest => (c :: rest).all isDigit
  | _ => false

/-- A number below `bound` with an optional base mark; a sign is refused after
the mark and where it comes twice. -/
def unsignedOf? (bound : Nat) (cs : List Char) : Option Nat :=
  let body := match cs with
    | '+' :: rest => rest
    | _ => cs
  let based : Option Nat :=
    match body with
    | '0' :: 'x' :: rest => digitsIn? 16 rest
    | '0' :: 'o' :: rest => digitsIn? 8 rest
    | '0' :: 'b' :: rest => digitsIn? 2 rest
    | _ => none
  match based.filter (· < bound) with
  | some n => some n
  | none => if hasLeadingZero cs then none else (digitsIn? 10 body).filter (· < bound)

def negativeOf? (bound : Nat) (cs : List Char) : Option Nat :=
  match cs with
  | '-' :: body =>
    let based : Option Nat :=
      match body with
      | '0' :: 'x' :: rest => digitsIn? 16 rest
      | '0' :: 'o' :: rest => digitsIn? 8 rest
      | '0' :: 'b' :: rest => digitsIn? 2 rest
      | _ => none
    match based.filter (· ≤ bound) with
    | some n => some n
    | none => if hasLeadingZero cs then none else (digitsIn? 10 body).filter (· ≤ bound)
  | _ => none

/-- Digits with an optional point and exponent, at least one digit before the
exponent: the digits as one number and the power of ten it is multiplied by. -/
def decimalOf? (cs : List Char) : Option (Nat × Int) := do
  let whole := cs.takeWhile isDigit
  let rest := cs.dropWhile isDigit
  let (fraction, rest) := match rest with
    | '.' :: more => (more.takeWhile isDigit, more.dropWhile isDigit)
    | _ => ([], rest)
  if whole.isEmpty && fraction.isEmpty then none
  else
    let significand := decimalValue (whole ++ fraction)
    let shift : Int := -(fraction.length : Int)
    match rest with
    | [] => some (significand, shift)
    | e :: more =>
      if e = 'e' ∨ e = 'E' then
        let (negative, digits) := match more with
          | '+' :: ds => (false, ds)
          | '-' :: ds => (true, ds)
          | _ => (false, more)
        if digits.isEmpty || !digits.all isDigit then none
        else
          let n : Int := decimalValue digits
          some (significand, if negative then shift - n else shift + n)
      else none

def isFiniteDecimal (significand : Nat) (exponent : Int) : Bool :=
  let limit := (Nat.pow 2 54 - 1) * Nat.pow 2 970
  if significand = 0 then true
  else if 400 < exponent then false
  else if exponent < 0 then
    let digits := (decimal significand).length
    (digits : Int) + exponent ≤ 308 ||
      ((digits : Int) + exponent ≤ 310 && significand < limit * Nat.pow 10 (-exponent).toNat)
  else significand * Nat.pow 10 exponent.toNat < limit

/-- Whether a text is a number that is no integer of 128 bits. -/
def isFloatText (s : String) : Bool :=
  if s ∈ [".inf", ".Inf", ".INF", "+.inf", "+.Inf", "+.INF", "-.inf", "-.Inf", "-.INF",
      ".nan", ".NaN", ".NAN"] then true
  else
    let body := match s.toList with
      | '+' :: rest => rest
      | '-' :: rest => rest
      | cs => cs
    match decimalOf? body with
    | some (significand, exponent) => isFiniteDecimal significand exponent
    | none => false

inductive Numeric where
  /-- An integer of 64 bits, signed or not. -/
  | int (n : Int)
  /-- An integer of 128 bits only. -/
  | large
  /-- Any other number. -/
  | float
deriving DecidableEq, Repr

def integerOf? (s : String) : Option Numeric :=
  let cs := s.toList
  match unsignedOf? (Nat.pow 2 64) cs with
  | some n => some (.int n)
  | none =>
    match negativeOf? (Nat.pow 2 63) cs with
    | some n => some (.int (-(n : Int)))
    | none =>
      if (unsignedOf? (Nat.pow 2 128) cs).isSome || (negativeOf? (Nat.pow 2 127) cs).isSome then some .large
      else none

def numericOf? (s : String) : Option Numeric :=
  match integerOf? s with
  | some n => some n
  | none => if !hasLeadingZero s.toList && isFloatText s then some .float else none

/-- The value of a number. No record has a field that takes a number other than
an integer, so those are alike. -/
def Numeric.toData? : Numeric → Option Data
  | .int n => some (.int n)
  | .large => none
  | .float => some (.float 0)

def coreTag (name : String) : String := "tag:yaml.org,2002:" ++ name

/-- The name of a type that a tag gives a node: tags that begin with an
exclamation mark do. -/
def localTag? (tag : Option String) : Option String :=
  match tag with
  | some t =>
    match t.toList with
    | ['!'] => some "!"
    | '!' :: rest => some (String.ofList rest)
    | _ => none
  | none => none

def plainValue? (s : String) : Option Data :=
  if s.isEmpty || isNullText s then some .null
  else
    match boolOf? s with
    | some b => some (.bool b)
    | none =>
      match numericOf? s with
      | some n => n.toData?
      | none => some (.str s)

/-- The value of a scalar: by its tag if that names a core type, else by what it
looks like if it is plain, else its text. -/
def scalarValue? (tag : Option String) (style : Style) (s : String) : Option Data :=
  if (localTag? tag).isSome then none
  else
    match tag with
    | some t =>
      if t = coreTag "bool" then (boolOf? s).map .bool
      else if t = coreTag "int" then (integerOf? s).bind Numeric.toData?
      else if t = coreTag "float" then if isFloatText s then some (.float 0) else none
      else if t = coreTag "null" then if isNullText s then some .null else none
      else some (.str s)
    | none => if style = .plain then plainValue? s else some (.str s)

/-- The nodes that aliases stand for, and how many more aliases may be
followed. -/
structure Follow where
  anchored : List (Nat × Node)
  left : Nat

/-- A reading of nodes that counts the aliases it follows and may fail. -/
abbrev Reading := StateT Follow Option

def resolve (n : Node) : Reading Node :=
  match n with
  | .alias target => do
    let f ← get
    match f.left, f.anchored.reverse.lookup target with
    | left + 1, some found => do
      set { f with left }
      pure found
    | _, _ => failure
  | _ => pure n

def valueOf : Nat → Node → Reading Data
  | 0, n => do
    match ← resolve n with
    | .scalar _ tag style s => StateT.lift (scalarValue? tag style s)
    | _ => failure
  | depth + 1, n => do
    match ← resolve n with
    | .scalar _ tag style s => StateT.lift (scalarValue? tag style s)
    | .seq _ tag items =>
      if (localTag? tag).isSome then failure
      else
        let values ← items.mapM (valueOf depth)
        pure (.seq values)
    | .map _ tag entries =>
      if (localTag? tag).isSome then failure
      else
        let values ← entries.mapM fun (k, v) => do
          let k ← valueOf depth k
          let v ← valueOf depth v
          pure (k, v)
        pure (.map values)
    | .alias _ => failure

end RecipeNet.Yaml
