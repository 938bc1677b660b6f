import Mathlib.Algebra.Group.Nat.Defs
import RecipeNet.Text.Digits

/-!
Numerals: the digits of a number give the number back, and what takes digits from a text for as
long as there are any takes those of one numeral.
-/

namespace RecipeNet.Text

def Undigited (cs : List Char) : Prop :=
  ∀ c ∈ cs.head?, isDigit c = false

theorem takeWhile_digits {ds rest : List Char} (digits : ∀ c ∈ ds, isDigit c = true)
    (h : Undigited rest) : (ds ++ rest).takeWhile isDigit = ds := by
  have hrest : rest.takeWhile isDigit = [] := by
    cases rest with
    | nil => rfl
    | cons c more => simp [h c rfl]
  rw [List.takeWhile_append_of_pos digits, hrest, List.append_nil]

theorem dropWhile_digits {ds rest : List Char} (digits : ∀ c ∈ ds, isDigit c = true)
    (h : Undigited rest) : (ds ++ rest).dropWhile isDigit = rest := by
  rw [List.dropWhile_append_of_pos digits]
  cases rest with
  | nil => rfl
  | cons c more => simp [h c rfl]

theorem toNat_hexDigit {n : Nat} (h : n < 10) : (hexDigit n).toNat = 48 + n := by
  have hall : ∀ m : Fin 10, (hexDigit m).toNat = 48 + m.val := by decide
  exact hall ⟨n, h⟩

theorem isDigit_hexDigit {n : Nat} (h : n < 10) : isDigit (hexDigit n) = true := by
  simp only [isDigit, toNat_hexDigit h, Bool.and_eq_true, decide_eq_true_eq]
  omega

theorem decimalValue_append (cs : List Char) (c : Char) :
    decimalValue (cs ++ [c]) = 10 * decimalValue cs + (c.toNat - 48) := by
  simp [decimalValue]

@[simp]
theorem length_decimalDigits (count n : Nat) : (decimalDigits count n).length = count := by
  induction count generalizing n with
  | zero => rfl
  | succ count ih => simp [decimalDigits, ih]

theorem isDigit_of_mem_decimalDigits {count n : Nat} {c : Char} (h : c ∈ decimalDigits count n) :
    isDigit c = true := by
  induction count generalizing n with
  | zero => cases h
  | succ count ih =>
    rcases List.mem_append.1 h with h | h
    · exact ih h
    · obtain rfl := List.mem_singleton.1 h
      exact isDigit_hexDigit (Nat.mod_lt n (by omega))

/-- A fixed count of digits gives back the number if there are enough. -/
theorem decimalValue_decimalDigits {count n : Nat} (h : n < 10 ^ count) :
    decimalValue (decimalDigits count n) = n := by
  induction count generalizing n with
  | zero =>
    obtain rfl := Nat.lt_one_iff.1 h
    rfl
  | succ count ih =>
    have hlt : n / 10 < 10 ^ count := by
      rw [Nat.pow_succ] at h
      omega
    rw [decimalDigits, decimalValue_append, ih hlt, toNat_hexDigit (Nat.mod_lt n (by omega))]
    omega

theorem isDigit_of_mem_decimal {n : Nat} {c : Char} (h : c ∈ decimal n) : isDigit c = true := by
  have hdigit := Nat.isDigit_of_mem_toDigits (by omega) (by omega) h
  simp only [Char.isDigit, Bool.and_eq_true, decide_eq_true_eq] at hdigit
  simp only [isDigit, Bool.and_eq_true, decide_eq_true_eq]
  exact hdigit

/-- Digits without leading zeros give back the number. -/
theorem decimalValue_decimal (n : Nat) : decimalValue (decimal n) = n :=
  Nat.ofDigitChars_eq_foldl.symm.trans Nat.ofDigitChars_ten_toDigits

theorem decimal_ne_nil (n : Nat) : decimal n ≠ [] :=
  Nat.toDigits_ne_nil

/-- Only zero is written with a zero in front. -/
theorem eq_zero_of_leading_zero {n : Nat} (h : (decimal n).head? = some '0') : n = 0 := by
  induction n using Nat.strongRecOn with
  | ind n ih =>
    by_cases hlt : n < 10
    · rw [decimal, Nat.toDigits_of_lt_base hlt] at h
      have hall : ∀ m : Fin 10, Nat.digitChar m = '0' → m.val = 0 := by decide
      exact hall ⟨n, hlt⟩ (Option.some.inj h)
    · have hle : 10 ≤ n := by omega
      obtain ⟨c, more, hfront⟩ := List.exists_cons_of_ne_nil (decimal_ne_nil (n / 10))
      rw [decimal, Nat.toDigits_of_base_le (by omega) hle, ← decimal, hfront] at h
      have hnone := ih (n / 10) (by omega) (hfront ▸ h)
      omega

/-- Zeros in front do not count. -/
theorem decimalValue_zeros (count : Nat) (cs : List Char) :
    decimalValue (List.replicate count '0' ++ cs) = decimalValue cs := by
  induction count with
  | zero => rfl
  | succ count ih => exact ih

end RecipeNet.Text
