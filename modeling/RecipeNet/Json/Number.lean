import RecipeNet.Decimal.Shortest
import RecipeNet.Json.Basic

/-!
Numbers in JSON text. Integers of 64 bits stay integers. Any other number is
a double, scaled by one power of ten from the digits that fit 64 bits; it is
written with the fewest digits that read back.
-/

namespace RecipeNet.Json.Number

open Text

/-- The text of a positive decimal: positional while the point falls within
the first 16 places or at most four zeros follow it, else with a signed
exponent. -/
def renderShortest (s : Decimal.Shortest) : List Char :=
  let ds := decimal s.digits
  let len : Int := ds.length
  let point := len + s.exponent
  if 0 ≤ s.exponent ∧ point ≤ 16 then
    ds ++ List.replicate s.exponent.toNat '0' ++ ['.', '0']
  else if 0 < point ∧ point ≤ 16 then
    ds.take point.toNat ++ '.' :: ds.drop point.toNat
  else if -5 < point ∧ point ≤ 0 then
    '0' :: '.' :: (List.replicate (-point).toNat '0' ++ ds)
  else
    let shift := point - 1
    let power := if shift < 0 then '-' :: decimal (-shift).toNat else '+' :: decimal shift.toNat
    match ds with
    | [d] => d :: 'e' :: power
    | d :: more => d :: '.' :: (more ++ 'e' :: power)
    | [] => []

def renderFloat (bits : UInt64) : List Char :=
  let b := Decimal.Binary.ofBits bits
  let magnitude := if b.mantissa = 0 then ['0', '.', '0'] else renderShortest b.shortest
  if bits.toNat < Nat.pow 2 63 then magnitude else '-' :: magnitude

def renderInt (n : Int) : List Char :=
  if n < 0 then '-' :: decimal (-n).toNat else decimal n.toNat

/-- What a complete numeral stands for: a value, or nothing when the number is
too large for a double. -/
inductive Numeral where
  | int (n : Int)
  | float (bits : UInt64)
  | tooLarge
deriving DecidableEq, Repr

/-- The double `significand · 10^exponent`, rounded after each of at most three
steps: the significand, the power of ten, and their product or quotient. -/
def scale (positive : Bool) (significand : Nat) (exponent : Int) : Numeral :=
  let f := (UInt64.ofNat significand).toFloat
  let signed (x : Float) : Numeral := .float (if positive then x else -x).toBits
  let power (k : Nat) : Float := Float.ofScientific 1 false k
  if 0 ≤ exponent then
    if 308 < exponent then
      if significand = 0 then signed f else .tooLarge
    else
      let x := f * power exponent.toNat
      if x.isInf then .tooLarge else signed x
  else
    let k := (-exponent).toNat
    if k ≤ 308 then signed (f / power k)
    else
      let g := f / power 308
      if k ≤ 616 then signed (g / power (k - 308)) else signed (0.0 : Float)

/-- Digits into a significand of at most 64 bits: the value of those that fit,
how many they were, and how many were left over. -/
def fill (start : Nat) : List Char → Nat × Nat × Nat
  | [] => (start, 0, 0)
  | c :: rest =>
    let next := 10 * start + (c.toNat - 48)
    if next < Nat.pow 2 64 then
      let (v, used, left) := fill next rest
      (v, used + 1, left)
    else (start, 0, rest.length + 1)

/-- Applies a written exponent, of which ten digits or more are beyond every
double. -/
def withExponent (positive : Bool) (significand : Nat) (start : Int) (negative : Bool)
    (digits : List Char) : Numeral :=
  let e := decimalValue digits
  if e < Nat.pow 2 31 then
    scale positive significand (if negative then start - e else start + e)
  else if significand ≠ 0 ∧ !negative then .tooLarge
  else .float (if positive then (0.0 : Float) else -0.0).toBits

/-- An exponent part, if the text goes on with one: whether it is negative and
its digits. The outer `none` is an `e` without digits. -/
def readExponent (cs : List Char) : Option (Option (Bool × List Char) × List Char) :=
  match cs with
  | [] => some (none, [])
  | c :: rest =>
    if c = 'e' ∨ c = 'E' then
      let (negative, rest) := match rest with
        | '+' :: more => (false, more)
        | '-' :: more => (true, more)
        | _ => (false, rest)
      let digits := rest.takeWhile isDigit
      if digits.isEmpty then none else some (some (negative, digits), rest.dropWhile isDigit)
    else some (none, cs)

def readUnsigned (positive : Bool) (cs : List Char) : Option (Numeral × List Char) := do
  let whole := cs.takeWhile isDigit
  let rest := cs.dropWhile isDigit
  if whole.isEmpty || (whole.head? == some '0' && 1 < whole.length) then none
  else
    let (significand, _, spare) := fill 0 whole
    match rest with
    | '.' :: more =>
      let fraction := more.takeWhile isDigit
      if fraction.isEmpty then none
      else
        let (significand, used, _) := fill significand fraction
        let start : Int := (spare : Int) - used
        match ← readExponent (more.dropWhile isDigit) with
        | (some (negative, digits), rest) =>
          some (withExponent positive significand start negative digits, rest)
        | (none, rest) => some (scale positive significand start, rest)
    | _ =>
      match ← readExponent rest with
      | (some (negative, digits), rest) =>
        some (withExponent positive significand spare negative digits, rest)
      | (none, rest) =>
        if spare ≠ 0 then some (scale positive significand spare, rest)
        else if positive then some (.int significand, rest)
        else if significand = 0 ∨ Nat.pow 2 63 < significand then some (scale false significand 0, rest)
        else some (.int (-(significand : Int)), rest)

def read (cs : List Char) : Option (Numeral × List Char) :=
  match cs with
  | '-' :: rest => readUnsigned false rest
  | _ => readUnsigned true cs

end RecipeNet.Json.Number
