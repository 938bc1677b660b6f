import RecipeNet.Plan.Sheet
import RecipeNet.Proofs.Text.Numerals

/-!
What plain scalars stand for. The digits of a number stand for the number, and a text is written
without quotes only if it stands for itself then.
-/

namespace RecipeNet
namespace Yaml

open Text

variable {cs : List Char} {n bound : Nat}

theorem digitIn?_ten {c : Char} (digit : isDigit c = true) : digitIn? 10 c = some (c.toNat - 48) := by
  simp only [isDigit, Bool.and_eq_true, decide_eq_true_eq] at digit
  rw [digitIn?, hexValue?, if_pos digit, Option.filter_some, if_pos]
  simpa using (by omega : c.toNat - 48 < 10)

theorem digitsIn?_ten (isNumber : cs ≠ []) (digits : ∀ c ∈ cs, isDigit c = true) :
    digitsIn? 10 cs = some (decimalValue cs) := by
  have hfold : ∀ before, cs.foldlM (fun n c => (digitIn? 10 c).map (10 * n + ·)) before =
      some (cs.foldl (fun n c => 10 * n + (c.toNat - 48)) before) := by
    clear isNumber
    induction cs with
    | nil => exact fun _ => rfl
    | cons c rest ih =>
      obtain ⟨hc, hrest⟩ := List.forall_mem_cons.1 digits
      intro before
      rw [List.foldlM_cons, digitIn?_ten hc, Option.map_some, Option.bind_eq_bind, Option.bind_some,
        ih hrest, List.foldl_cons]
  rw [digitsIn?, if_neg (by simpa using isNumber), hfold, decimalValue]

/-- Only zero is written with a zero in front, and no number with a sign. -/
theorem decimal_front (n : Nat) : n = 0 ∨ ∃ c rest, decimal n = c :: rest ∧ c ≠ '+' ∧ c ≠ '-' ∧
    c ≠ '0' := by
  obtain ⟨c, rest, hfront⟩ := List.exists_cons_of_ne_nil (decimal_ne_nil n)
  have hdigit : isDigit c = true := isDigit_of_mem_decimal (hfront ▸ List.mem_cons_self)
  by_cases hzero : c = '0'
  · exact .inl (eq_zero_of_leading_zero (by rw [hfront, hzero]; rfl))
  · refine .inr ⟨c, rest, hfront, ?_, ?_, hzero⟩
    all_goals
      rintro rfl
      cases hdigit

/-- A number is read from its digits. -/
theorem unsignedOf?_decimal (h : n < bound) : unsignedOf? bound (decimal n) = some n := by
  rcases decimal_front n with rfl | ⟨c, rest, hfront, hplus, hminus, hzero⟩
  · rw [show decimal 0 = ['0'] from rfl]
    simp [unsignedOf?, hasLeadingZero, digitsIn?, digitIn?, hexValue?, h]
  · have hsolid : hasLeadingZero (c :: rest) = false := by
      simp [hasLeadingZero, hplus, hminus, hzero]
    have hvalue : digitsIn? 10 (c :: rest) = some n := by
      rw [← hfront, digitsIn?_ten (decimal_ne_nil n) fun _ => isDigit_of_mem_decimal,
        decimalValue_decimal]
    rw [hfront]
    simp [unsignedOf?, hplus, hzero, hsolid, hvalue, h]

theorem toList_toString (n : Nat) : (toString n).toList = decimal n := by
  rw [Nat.toString_eq_repr, Nat.repr, String.toList_ofList, decimal]

/-- No word is the text of a number if it does not begin with a digit. -/
theorem toString_ne {n : Nat} {s : String} (h : s.toList.head?.all (!isDigit ·) = true) :
    toString n ≠ s := by
  rintro rfl
  obtain ⟨c, rest, hfront⟩ := List.exists_cons_of_ne_nil (decimal_ne_nil n)
  have hdigit : isDigit c = true := isDigit_of_mem_decimal (hfront ▸ List.mem_cons_self)
  rw [toList_toString, hfront, List.head?_cons, Option.all_some, hdigit] at h
  cases h

theorem plainValue?_toString (h : n < 2 ^ 64) : plainValue? (toString n) = some (.int n) := by
  have hnot : ∀ words : List String, words.all (·.toList.head?.all (!isDigit ·)) = true →
      toString n ∉ words := fun words hwords hmem =>
    toString_ne (List.all_eq_true.1 hwords _ hmem) rfl
  have hempty : (toString n).isEmpty = false := by
    rw [String.isEmpty_eq_false_iff]
    exact toString_ne rfl
  have hnull : isNullText (toString n) = false := decide_eq_false (hnot _ (by decide))
  have hbool : boolOf? (toString n) = none := by
    rw [boolOf?, if_neg (hnot _ (by decide)), if_neg (hnot _ (by decide))]
  have hint : integerOf? (toString n) = some (.int n) := by
    rw [integerOf?]
    simp only [toList_toString, unsignedOf?_decimal (show n < Nat.pow 2 64 from h)]
  rw [plainValue?, hempty, hnull, hbool]
  simp only [Bool.or_self, Bool.false_eq_true, if_false, numericOf?, hint, Numeric.toData?]

theorem scalarValue?_untagged (style : Style) (s : String) :
    scalarValue? none style s = if style = .plain then plainValue? s else some (.str s) :=
  rfl

/-- A text that stands for itself without quotes is not null. -/
theorem not_null_of_plain {s : String} (h : scalarValue? none .plain s = some (.str s)) :
    (s.isEmpty || isNullText s) = false := by
  rw [scalarValue?_untagged, if_pos rfl, plainValue?] at h
  cases hnull : s.isEmpty || isNullText s with
  | false => rfl
  | true =>
    rw [if_pos hnull] at h
    cases h

end Yaml

namespace Plan.Sheet

open Yaml

/-- A text stands for itself in the style that it asks for. -/
theorem scalarValue?_styleOf (s : String) : scalarValue? none (styleOf s) s = some (.str s) := by
  rw [scalarValue?_untagged]
  by_cases hplain : styleOf s = .plain
  · rw [if_pos hplain]
    rw [styleOf] at hplain
    split at hplain
    · cases hplain
    · split at hplain
      · cases hplain
      · rename_i hwords
        simp only [Bool.or_eq_true, not_or, Bool.not_eq_true, Option.isSome_eq_false_iff,
          Option.isNone_iff_eq_none] at hwords
        obtain ⟨⟨⟨⟨hempty, hnull⟩, hbool⟩, hnumeric⟩, -⟩ := hwords
        rw [plainValue?, hempty, hnull, hbool, hnumeric]
        rfl
  · rw [if_neg hplain]

end Plan.Sheet
end RecipeNet
