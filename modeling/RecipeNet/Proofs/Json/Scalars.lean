import Mathlib.Algebra.Group.Int.Defs
import RecipeNet.Json.Printer
import RecipeNet.Json.Reader
import RecipeNet.Proofs.Text.Numerals

/-!
Texts and integers in JSON: what is written for them is read as them again, whatever follows.
-/

namespace RecipeNet.Json

open Text

/-! ### Texts -/

/-- The code units of a control character, which is written by its number. -/
theorem readUnits_control {c : Char} (h : c.toNat < 32) (cs : List Char) :
    readUnits ('\\' :: 'u' :: (hexDigits 4 c.toNat ++ cs)) =
      (readUnits cs).map fun x => (c.toNat :: x.1, x.2) := by
  have hnumber : hexNumber? (hexDigits 4 c.toNat) = some c.toNat := by
    rw [hexNumber?_hexDigits, Nat.mod_eq_of_lt (show c.toNat < Nat.pow 16 4 by simp; omega)]
  simp only [hexDigits, List.nil_append, List.cons_append] at hnumber ⊢
  simp only [readUnits, hnumber]
  cases readUnits cs <;> rfl

theorem readUnits_plain {c : Char} (quoted : c ≠ '"') (escaped : c ≠ '\\') (h : ¬ c.toNat < 32)
    (cs : List Char) : readUnits (c :: cs) = (readUnits cs).map fun x => (c.toNat :: x.1, x.2) := by
  rw [readUnits.eq_def]
  split
  case h_5 c' rest heq =>
    obtain ⟨rfl, rfl⟩ := List.cons.inj heq
    rw [if_neg h]
    cases readUnits cs <;> rfl
  all_goals simp_all

/-- A written character is one unit. -/
theorem readUnits_escape (c : Char) (cs : List Char) :
    readUnits (escape c ++ cs) = (readUnits cs).map fun x => (c.toNat :: x.1, x.2) := by
  have hshort : ∀ e, e ≠ 'u' → unescape? e = some c →
      readUnits ('\\' :: e :: cs) = (readUnits cs).map fun x => (c.toNat :: x.1, x.2) := by
    intro e hu he
    rw [readUnits, he]
    · cases readUnits cs <;> rfl
    · exact fun _ _ _ _ _ heq _ => hu heq
  unfold escape
  split
  · exact hshort '"' (by decide) (by simp_all [unescape?])
  · split
    · exact hshort '\\' (by decide) (by simp_all [unescape?])
    split
    · exact hshort 'n' (by decide) (by simp_all [unescape?])
    split
    · exact hshort 'r' (by decide) (by simp_all [unescape?])
    split
    · exact hshort 't' (by decide) (by simp_all [unescape?])
    split
    · exact hshort 'b' (by decide) (by simp_all [unescape?])
    split
    · exact hshort 'f' (by decide) (by simp_all [unescape?])
    split
    · next h => exact readUnits_control h cs
    · next hquote hslash _ _ _ _ _ h => exact readUnits_plain hquote hslash h cs

theorem readUnits_text (cs rest : List Char) :
    readUnits (cs.flatMap escape ++ '"' :: rest) = some (cs.map Char.toNat, rest) := by
  induction cs with
  | nil => rfl
  | cons c more ih =>
    rw [List.flatMap_cons, List.append_assoc, readUnits_escape, ih]
    rfl

/-- No character is a surrogate. -/
theorem not_surrogate (c : Char) : ¬ (0xD800 ≤ c.toNat ∧ c.toNat ≤ 0xDFFF) := by
  have hvalid : c.toNat < 0xD800 ∨ 0xDFFF < c.toNat ∧ c.toNat < 0x110000 := c.valid
  omega

theorem joinUnits_toNat (cs : List Char) : joinUnits (cs.map Char.toNat) = some cs := by
  induction cs with
  | nil => rfl
  | cons c more ih =>
    have hc := not_surrogate c
    cases more with
    | nil =>
      simp only [List.map_cons, List.map_nil, joinUnits, if_neg hc, Char.ofNat_toNat]
    | cons d more =>
      simp only [List.map_cons] at ih ⊢
      rw [joinUnits, if_neg (by omega), if_neg (by omega), ih, Char.ofNat_toNat]
      rfl

/-- A quoted text is read up to its closing quote. -/
theorem readText_quote (s : String) (rest : List Char) :
    readText (s.toList.flatMap escape ++ '"' :: rest) = some (some s, rest) := by
  rw [readText, readUnits_text]
  simp [joinUnits_toNat]

/-! ### Integers -/

namespace Number

/-- A text that does not go on with more of a number. -/
structure Complete (rest : List Char) : Prop where
  undigited : Undigited rest
  point : rest.head? ≠ some '.'
  exponent : rest.head? ≠ some 'e' ∧ rest.head? ≠ some 'E'

variable {rest : List Char}

theorem readExponent_none (h : Complete rest) : readExponent rest = some (none, rest) := by
  cases rest with
  | nil => rfl
  | cons c more =>
    have hc : ¬ (c = 'e' ∨ c = 'E') := by
      rintro (rfl | rfl)
      · exact h.exponent.1 rfl
      · exact h.exponent.2 rfl
    simp only [readExponent, if_neg hc]

theorem decimalValue_start (cs : List Char) (start : Nat) :
    start ≤ cs.foldl (fun n c => 10 * n + (c.toNat - 48)) start := by
  induction cs generalizing start with
  | nil => exact Nat.le_refl start
  | cons c more ih =>
    have hle := ih (10 * start + (c.toNat - 48))
    rw [List.foldl_cons]
    omega

/-- All digits of a number of 64 bits fit. -/
theorem fill_of_lt {cs : List Char} {start : Nat}
    (h : cs.foldl (fun n c => 10 * n + (c.toNat - 48)) start < 2 ^ 64) :
    fill start cs = (cs.foldl (fun n c => 10 * n + (c.toNat - 48)) start, cs.length, 0) := by
  induction cs generalizing start with
  | nil => rfl
  | cons c more ih =>
    have hnext : 10 * start + (c.toNat - 48) < Nat.pow 2 64 :=
      Nat.lt_of_le_of_lt (decimalValue_start more _) h
    rw [fill]
    simp only [if_pos hnext, ih h]
    rfl

theorem fill_decimal {n : Nat} (h : n < 2 ^ 64) : fill 0 (decimal n) = (n, (decimal n).length, 0) := by
  have hvalue := decimalValue_decimal n
  unfold decimalValue at hvalue
  have hfill : fill 0 (decimal n) = _ := fill_of_lt (hvalue.symm ▸ h)
  rwa [hvalue] at hfill

theorem readUnsigned_decimal {n : Nat} (h : n < 2 ^ 64) (positive : Bool) (hrest : Complete rest) :
    readUnsigned positive (decimal n ++ rest) = some
      (if positive then .int n
        else if n = 0 ∨ Nat.pow 2 63 < n then scale false n 0 else .int (-(n : Int)), rest) := by
  have hdigits : ∀ c ∈ decimal n, isDigit c = true := fun c => isDigit_of_mem_decimal
  have hfront : ((decimal n).isEmpty ||
      ((decimal n).head? == some '0' && 1 < (decimal n).length)) = false := by
    have hne := decimal_ne_nil n
    by_cases hzero : (decimal n).head? = some '0'
    · obtain rfl := eq_zero_of_leading_zero hzero
      rfl
    · simp [hne, hzero]
  unfold readUnsigned
  rw [takeWhile_digits hdigits hrest.undigited, dropWhile_digits hdigits hrest.undigited]
  simp only [hfront, fill_decimal h, Bool.false_eq_true, if_false]
  split
  · exact (hrest.point rfl).elim
  · rw [readExponent_none hrest]
    cases positive
    · simp only [Option.bind_eq_bind, Option.bind_some, ne_eq, not_true_eq_false,
        Bool.false_eq_true, if_false]
      split <;> rfl
    · rfl

/-- An integer of 64 bits is read up to where its digits end. -/
theorem read_renderInt {n : Int} (low : -2 ^ 63 ≤ n) (high : n < 2 ^ 64) (hrest : Complete rest) :
    read (renderInt n ++ rest) = some (.int n, rest) := by
  unfold renderInt
  split
  · have hread := readUnsigned_decimal (n := (-n).toNat) (by omega) false hrest
    have hfits : ¬ ((-n).toNat = 0 ∨ Nat.pow 2 63 < (-n).toNat) := by
      simp
      omega
    rw [if_neg Bool.false_ne_true, if_neg hfits] at hread
    rw [List.cons_append, read, hread]
    congr
    omega
  · have hread := readUnsigned_decimal (n := n.toNat) (by omega) true hrest
    obtain ⟨c, more, hfront⟩ := List.exists_cons_of_ne_nil (decimal_ne_nil n.toNat)
    have hc : c ≠ '-' := by
      rintro rfl
      have hdigit := isDigit_of_mem_decimal (hfront ▸ List.mem_cons_self : '-' ∈ decimal n.toNat)
      cases hdigit
    rw [if_pos rfl, hfront, List.cons_append] at hread
    rw [hfront, List.cons_append, read, hread]
    · congr
      omega
    · exact fun _ heq => hc (List.cons.inj heq).1

end Number

end RecipeNet.Json
