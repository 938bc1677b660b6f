import RecipeNet.Text.Digits

/-!
The shortest decimal that rounds to a given binary number. A binary number is
`m · 2^q`; the reals that round to it form an interval around it, whose ends
belong to it when `m` is even. Of the decimals with the fewest digits in that
interval the nearest is taken, and of two equally near ones the even one.
-/

namespace RecipeNet.Decimal

/-- A double without its sign: `mantissa · 2^exponent`. -/
structure Binary where
  mantissa : Nat
  exponent : Int
deriving DecidableEq, Repr

/-- The magnitude that the low 63 bits of a double encode. -/
def Binary.ofBits (bits : UInt64) : Binary :=
  let n : Nat := bits.toNat % Nat.pow 2 63
  let field : Nat := n / Nat.pow 2 52
  let low : Nat := n % Nat.pow 2 52
  if field = 0 then ⟨low, -1074⟩ else ⟨Nat.pow 2 52 + low, Int.ofNat field - 1075⟩

structure Ratio where
  num : Nat
  den : Nat

/-- `mantissa · 2^exponent` with everything multiplied by `scale`. -/
def Binary.ratio (b : Binary) (scale : Nat) : Ratio :=
  ⟨scale * b.mantissa * Nat.pow 2 b.exponent.toNat, Nat.pow 2 (-b.exponent).toNat⟩

/-- The least `k` from `start` on, within `fuel` steps, with `r < 10^(k + 1)`. -/
def Ratio.magnitudeFrom (r : Ratio) : Nat → Int → Int
  | 0, k => k
  | fuel + 1, k =>
    if r.num * Nat.pow 10 (-(k + 1)).toNat < r.den * Nat.pow 10 (k + 1).toNat then k
    else r.magnitudeFrom fuel (k + 1)

/-- The power of ten of a fraction's first digit, for fractions from `10^-330`
to `10^330`. -/
def Ratio.magnitude (r : Ratio) : Int :=
  r.magnitudeFrom 660 (-330)

/-- A decimal `digits · 10^exponent`. -/
structure Shortest where
  digits : Nat
  exponent : Int
deriving DecidableEq, Repr

/-- The grid point at or below `r` on the grid of step `10^k`. -/
def Ratio.gridFloor (r : Ratio) (k : Int) : Nat :=
  r.num * Nat.pow 10 (-k).toNat / (r.den * Nat.pow 10 k.toNat)

/-- Whether `4 · d · 10^k` lies between the two bounds, which are given over
the denominator of `r` and count as inside when `closed`. -/
def inside (den low high : Nat) (closed : Bool) (k : Int) (d : Nat) : Bool :=
  let x := 4 * d * Nat.pow 10 k.toNat * den
  let s := Nat.pow 10 (-k).toNat
  if closed then low * s ≤ x && x ≤ high * s else low * s < x && x < high * s

/-- The candidate of the grid `10^k` for a number given four times over, if
one of its two grid neighbours rounds to it. -/
def candidate? (r four : Ratio) (low high : Nat) (closed : Bool) (k : Int) : Option Nat :=
  let d := r.gridFloor k
  let lowIn := inside four.den low high closed k d && d != 0
  let highIn := inside four.den low high closed k (d + 1)
  if lowIn && highIn then
    let twice := 2 * r.num * Nat.pow 10 (-k).toNat
    let middle := (2 * d + 1) * r.den * Nat.pow 10 k.toNat
    if twice < middle then some d
    else if middle < twice then some (d + 1)
    else if d % 2 = 0 then some d else some (d + 1)
  else if lowIn then some d
  else if highIn then some (d + 1)
  else none

/-- The same decimal without trailing zeros among up to `fuel` last digits. -/
def Shortest.strip : Nat → Shortest → Shortest
  | 0, s => s
  | fuel + 1, s => if s.digits % 10 = 0 then strip fuel ⟨s.digits / 10, s.exponent + 1⟩ else s

/-- Tries grids of `17 - fuel + 1`, … significant digits in turn. -/
def search (r four : Ratio) (low high : Nat) (closed : Bool) (top : Int) : Nat → Shortest
  | 0 => ⟨r.gridFloor (top - 16), top - 16⟩
  | fuel + 1 =>
    let k := top - (16 - fuel : Nat)
    match candidate? r four low high closed k with
    | some d => ⟨d, k⟩
    | none => search r four low high closed top fuel

def Binary.shortest (b : Binary) : Shortest :=
  let r := b.ratio 1
  let four := b.ratio 4
  let unit := Nat.pow 2 b.exponent.toNat
  let high := four.num + 2 * unit
  let low :=
    if b.mantissa = Nat.pow 2 52 ∧ -1074 < b.exponent then four.num - unit else four.num - 2 * unit
  (search r four low high (b.mantissa % 2 = 0) r.magnitude 17).strip 17

end RecipeNet.Decimal
