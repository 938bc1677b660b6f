import RecipeNet.Proofs.Text.Numerals
import RecipeNet.Proofs.Timestamp.Calendar
import RecipeNet.Timestamp.Reader

/-!
Points in time as texts: what is written for a point in time is read as that point.
-/

namespace RecipeNet.Timestamp

open Text

/-- A point in time that a clock can show. -/
structure Genuine (t : Timestamp) : Prop where
  day : t.day.Listed
  hour : t.hour < 24
  minute : t.minute < 60
  second : t.second ≤ 60
  nanos : t.nanos < 10 ^ 9

variable {rest : List Char}

theorem isBlank_of_isDigit {c : Char} (h : isDigit c = true) : isBlank c = false := by
  simp only [isDigit, Bool.and_eq_true, decide_eq_true_eq] at h
  simp only [isBlank, Bool.or_eq_false_iff, Bool.and_eq_false_iff, beq_eq_false_iff_ne,
    decide_eq_false_iff_not]
  omega

theorem skipBlanks_cons {c : Char} (h : isBlank c = false) (cs : List Char) :
    skipBlanks (c :: cs) = c :: cs :=
  List.dropWhile_cons_of_neg (by simp [h])

theorem skipBlanks_digits {ds : List Char} (some_digits : ds ≠ [])
    (digits : ∀ c ∈ ds, isDigit c = true) : skipBlanks (ds ++ rest) = ds ++ rest := by
  obtain ⟨c, more, rfl⟩ := List.exists_cons_of_ne_nil some_digits
  exact skipBlanks_cons (isBlank_of_isDigit (digits c List.mem_cons_self)) _

/-- A number of full width is read up to its last digit. -/
theorem readNumber_decimalDigits {width n : Nat} (wide : 0 < width) (h : n < 10 ^ width) :
    readNumber width (decimalDigits width n ++ rest) = some (n, rest) := by
  have hdigits : ∀ c ∈ decimalDigits width n, isDigit c = true :=
    fun c => isDigit_of_mem_decimalDigits
  have hne : decimalDigits width n ≠ [] := by
    intro hnil
    have hlength := length_decimalDigits width n
    rw [hnil, List.length_nil] at hlength
    omega
  have htake : (decimalDigits width n ++ rest).take width = decimalDigits width n :=
    List.take_left' (length_decimalDigits width n)
  have hall := takeWhile_digits hdigits (show Undigited [] from nofun)
  rw [List.append_nil] at hall
  unfold readNumber
  rw [skipBlanks_digits hne hdigits]
  simp only [htake, hall, decimalValue_decimalDigits h, List.isEmpty_iff, hne, if_false,
    List.drop_left]

theorem undigited_cons {c : Char} (h : isDigit c = false) (cs : List Char) : Undigited (c :: cs) := by
  intro d hd
  cases hd
  exact h

/-- Digits after a sign are read up to the last one. -/
theorem readYear_signed {ds : List Char} (some_digits : ds ≠ [])
    (digits : ∀ c ∈ ds, isDigit c = true) (hrest : Undigited rest) :
    readYear ('-' :: (ds ++ rest)) = some (-(decimalValue ds : Int), rest) ∧
      readYear ('+' :: (ds ++ rest)) = some ((decimalValue ds : Int), rest) := by
  have htake := takeWhile_digits digits hrest
  have hminus : readYear ('-' :: (ds ++ rest)) =
      (if ((ds ++ rest).takeWhile isDigit).isEmpty then none
        else some (-(decimalValue ((ds ++ rest).takeWhile isDigit) : Int),
          (ds ++ rest).drop ((ds ++ rest).takeWhile isDigit).length)) := rfl
  have hplus : readYear ('+' :: (ds ++ rest)) =
      (if ((ds ++ rest).takeWhile isDigit).isEmpty then none
        else some ((decimalValue ((ds ++ rest).takeWhile isDigit) : Int),
          (ds ++ rest).drop ((ds ++ rest).takeWhile isDigit).length)) := rfl
  rw [hminus, hplus, htake]
  simp [some_digits]

theorem readYear_unsigned {ds : List Char} (some_digits : ds ≠ [])
    (digits : ∀ c ∈ ds, isDigit c = true) :
    readYear (ds ++ rest) = (readNumber 4 (ds ++ rest)).map fun (n, cs) => ((n : Int), cs) := by
  obtain ⟨c, more, rfl⟩ := List.exists_cons_of_ne_nil some_digits
  have hc := digits c List.mem_cons_self
  unfold readYear
  rw [skipBlanks_digits (List.cons_ne_nil c more) digits, List.cons_append]
  split
  · next heq =>
    obtain ⟨rfl, -⟩ := List.cons.inj heq
    cases hc
  · next heq =>
    obtain ⟨rfl, -⟩ := List.cons.inj heq
    cases hc
  · rfl

/-- A year is read up to its last digit. -/
theorem readYear_yearChars (year : Int) (hrest : Undigited rest) :
    readYear (yearChars year ++ rest) = some (year, rest) := by
  unfold yearChars
  split
  · next hfour =>
    have hread : readNumber 4 (decimalDigits 4 year.toNat ++ rest) = _ :=
      readNumber_decimalDigits (by omega) (by omega)
    have hne : decimalDigits 4 year.toNat ≠ [] := by simp [decimalDigits]
    rw [readYear_unsigned hne fun c => isDigit_of_mem_decimalDigits, hread, Option.map_some]
    simp only [Int.toNat_of_nonneg hfour.1]
  · have hdigits : ∀ c ∈ List.replicate (4 - (decimal year.natAbs).length) '0' ++ decimal year.natAbs,
        isDigit c = true := by
      intro c hc
      rcases List.mem_append.1 hc with hzero | hc
      · obtain rfl := List.eq_of_mem_replicate hzero
        rfl
      · exact isDigit_of_mem_decimal hc
    have hne : List.replicate (4 - (decimal year.natAbs).length) '0' ++ decimal year.natAbs ≠ [] :=
      List.append_ne_nil_of_right_ne_nil _ (decimal_ne_nil _)
    obtain ⟨hminus, hplus⟩ := readYear_signed hne hdigits hrest
    rw [decimalValue_zeros, decimalValue_decimal] at hminus hplus
    dsimp only
    split
    · rw [List.cons_append, hminus]
      congr
      omega
    · rw [List.cons_append, hplus]
      congr
      omega

/-- A day is read up to its last digit. -/
theorem readDay_chars {d : CalendarDay} (h : d.Listed) :
    readDay (yearChars d.year ++ '-' :: (decimalDigits 2 d.month ++ '-' ::
      (decimalDigits 2 d.day ++ rest))) = some (d, rest) := by
  have hmark : ∀ cs, readMark '-' ('-' :: cs) = some cs := fun _ => rfl
  have hmonth := h.month
  have hday := h.day
  have hlength := CalendarDay.monthLength_le d.year d.month
  unfold readDay
  rw [readYear_yearChars _ (undigited_cons rfl _)]
  simp only [Option.bind_eq_bind, Option.bind_some, hmark,
    readNumber_decimalDigits (show 0 < 2 by omega) (show d.month < 10 ^ 2 by omega),
    readNumber_decimalDigits (show 0 < 2 by omega) (show d.day < 10 ^ 2 by omega), h.ofNumbers?]

/-- The digits of a fraction, by its groups. -/
theorem readFraction_digits {count n : Nat} (some_digits : 0 < count) (few : count ≤ 9)
    (h : n < 10 ^ count) (hrest : Undigited rest) :
    readFraction ('.' :: (decimalDigits count n ++ rest)) = some (n * 10 ^ (9 - count), rest) := by
  have hdigits : ∀ c ∈ decimalDigits count n, isDigit c = true :=
    fun c => isDigit_of_mem_decimalDigits
  have hne : (decimalDigits count n).isEmpty = false := by
    rw [List.isEmpty_eq_false_iff, ← List.length_pos_iff, length_decimalDigits]
    exact some_digits
  have hkept : (decimalDigits count n).take 9 = decimalDigits count n :=
    List.take_of_length_le (by rw [length_decimalDigits]; exact few)
  rw [readFraction, takeWhile_digits hdigits hrest]
  simp only [hne, hkept, Bool.false_eq_true, if_false, decimalValue_decimalDigits h,
    length_decimalDigits, List.drop_left']
  rfl

/-- A fraction of a second is read up to its last digit. -/
theorem readFraction_fractionChars {nanos : Nat} (h : nanos < 10 ^ 9) (cs : List Char) :
    readFraction (fractionChars nanos ++ 'Z' :: cs) = some (nanos, 'Z' :: cs) := by
  have hrest : Undigited ('Z' :: cs) := undigited_cons rfl cs
  unfold fractionChars
  split
  · next hzero =>
    rw [hzero]
    rfl
  · split
    · rw [List.cons_append, readFraction_digits (by omega) (by omega) (by omega) hrest]
      congr
      omega
    · split
      · rw [List.cons_append, readFraction_digits (by omega) (by omega) (by omega) hrest]
        congr
        omega
      · rw [List.cons_append, readFraction_digits (by omega) (by omega) h hrest]
        congr
        omega

/-- A clock at no offset shows the point itself. -/
theorem ofLocal?_zero {t : Timestamp} (h : t.Genuine) : t.ofLocal? 0 = some t := by
  have hhour := h.hour
  have hminute := h.minute
  have hminutes : ((t.day.toDays * 1440 + (t.hour * 60 + t.minute : Nat) - 0) % 1440).toNat =
      t.hour * 60 + t.minute := by
    omega
  have hdays : (t.day.toDays * 1440 + (t.hour * 60 + t.minute : Nat) - 0) / 1440 = t.day.toDays := by
    omega
  have hclock : (t.hour * 60 + t.minute) / 60 = t.hour ∧ (t.hour * 60 + t.minute) % 60 = t.minute := by
    omega
  unfold ofLocal?
  simp only [hminutes, hdays, CalendarDay.ofDays_toDays h.day, h.day.year, if_true, hclock]

/-- What is written for a point in time is read as that point. -/
theorem parse?_text {t : Timestamp} (h : t.Genuine) : parse? t.text = some t := by
  have hmark : ∀ cs, readMark ':' (':' :: cs) = some cs := fun _ => rfl
  have hhour := h.hour
  have hminute := h.minute
  have hsecond := h.second
  have hclock : ∀ cs, readClock t.day (decimalDigits 2 t.hour ++ ':' :: (decimalDigits 2 t.minute ++
      ':' :: (decimalDigits 2 t.second ++ (fractionChars t.nanos ++ 'Z' :: cs)))) = some (t, 'Z' :: cs) := by
    intro cs
    unfold readClock
    simp only [readNumber_decimalDigits (show 0 < 2 by omega) (show t.hour < 10 ^ 2 by omega),
      readNumber_decimalDigits (show 0 < 2 by omega) (show t.minute < 10 ^ 2 by omega),
      readNumber_decimalDigits (show 0 < 2 by omega) (show t.second < 10 ^ 2 by omega),
      Option.bind_eq_bind, Option.bind_some, hmark, readFraction_fractionChars h.nanos]
    exact if_pos ⟨hhour, hminute, hsecond⟩
  rw [parse?, text, String.toList_ofList, ofChars?, chars, readDay_chars h.day]
  simp only [Option.bind_eq_bind, Option.bind_some, hclock]
  exact ofLocal?_zero h

end RecipeNet.Timestamp
