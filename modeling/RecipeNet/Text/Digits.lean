/-!
Digits of numerals: hexadecimal and decimal digits as characters, and numbers
written in a base with a fixed count of digits.
-/

namespace RecipeNet.Text

def hexDigit (n : Nat) : Char :=
  if n < 10 then Char.ofNat (48 + n) else Char.ofNat (87 + n)

def hexDigitUpper (n : Nat) : Char :=
  if n < 10 then Char.ofNat (48 + n) else Char.ofNat (55 + n)

def hexValue? (c : Char) : Option Nat :=
  let n := c.toNat
  if 48 ≤ n ∧ n ≤ 57 then some (n - 48)
  else if 97 ≤ n ∧ n ≤ 102 then some (n - 87)
  else if 65 ≤ n ∧ n ≤ 70 then some (n - 55)
  else none

def isDigit (c : Char) : Bool :=
  48 ≤ c.toNat && c.toNat ≤ 57

/-- The last `count` digits of a number in base 16, the first one leading. -/
def hexDigits : Nat → Nat → List Char
  | 0, _ => []
  | count + 1, n => hexDigits count (n / 16) ++ [hexDigit (n % 16)]

def hexDigitsUpper : Nat → Nat → List Char
  | 0, _ => []
  | count + 1, n => hexDigitsUpper count (n / 16) ++ [hexDigitUpper (n % 16)]

def hexNumber? (cs : List Char) : Option Nat :=
  cs.foldlM (fun n c => (hexValue? c).map (16 * n + ·)) 0

def decimalDigits : Nat → Nat → List Char
  | 0, _ => []
  | count + 1, n => decimalDigits count (n / 10) ++ [hexDigit (n % 10)]

/-- The value of decimal digits, the first one leading; other characters
count as their distance from `0`. -/
def decimalValue (cs : List Char) : Nat :=
  cs.foldl (fun n c => 10 * n + (c.toNat - 48)) 0

def decimal (n : Nat) : List Char :=
  Nat.toDigits 10 n

/-- Reads an unsigned decimal number below `bound`: an optional `+` and then
at least one digit. -/
def boundedNat? (bound : Nat) (cs : List Char) : Option Nat :=
  let digits := match cs with
    | '+' :: rest => rest
    | _ => cs
  if digits.isEmpty || !digits.all isDigit then none
  else
    let n := decimalValue digits
    if n < bound then some n else none

theorem length_hexDigits (count n : Nat) : (hexDigits count n).length = count := by
  induction count generalizing n with
  | zero => rfl
  | succ count ih => simp [hexDigits, ih]

theorem hexValue?_hexDigit {n : Nat} (h : n < 16) : hexValue? (hexDigit n) = some n := by
  have all : ∀ m : Fin 16, hexValue? (hexDigit m) = some m.val := by decide
  exact all ⟨n, h⟩

/-- Fixed-width hexadecimal digits read back modulo the width's capacity. -/
theorem hexNumber?_hexDigits (count n : Nat) :
    hexNumber? (hexDigits count n) = some (n % Nat.pow 16 count) := by
  induction count generalizing n with
  | zero => simp [hexDigits, hexNumber?, Nat.mod_one]
  | succ count ih =>
    have hd := hexValue?_hexDigit (Nat.mod_lt n (by decide : 0 < 16))
    have step : n % Nat.pow 16 (count + 1) = 16 * (n / 16 % Nat.pow 16 count) + n % 16 := by
      have split : Nat.pow 16 (count + 1) = 16 * Nat.pow 16 count := Nat.mul_comm _ _
      rw [split, Nat.mod_mul]
      omega
    have := ih (n / 16)
    simp only [hexNumber?] at this
    simp only [hexDigits, hexNumber?, List.foldlM_append, this, step]
    simp [hd]

end RecipeNet.Text
