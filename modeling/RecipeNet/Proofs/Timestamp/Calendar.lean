import RecipeNet.Timestamp.Calendar

/-!
Days of the calendar and their numbers: the day that has the number of a day is that day.
-/

namespace RecipeNet.CalendarDay

/-- A day that the calendar has, in the years for which days are counted. -/
structure Listed (d : CalendarDay) : Prop where
  year : inRange d.year = true
  month : 1 ≤ d.month ∧ d.month ≤ 12
  day : 1 ≤ d.day ∧ d.day ≤ monthLength d.year d.month

theorem Listed.ofNumbers? {d : CalendarDay} (h : d.Listed) :
    ofNumbers? d.year d.month d.day = some d :=
  if_pos ⟨h.year, h.month.1, h.month.2, h.day.1, h.day.2⟩

/-! ### Years that start in March, within a cycle of four hundred -/

/-- How many days of a cycle precede a year of it. -/
def marchDays (y : Nat) : Nat := 365 * y + y / 4 - y / 100

/-- How many days such a year has: the leap day of the next calendar year is its last. -/
def marchLength (y : Nat) : Nat :=
  if (y + 1) % 4 = 0 ∧ ((y + 1) % 100 ≠ 0 ∨ (y + 1) % 400 = 0) then 366 else 365

def marchYear (day : Nat) : Nat :=
  (day - day / 1460 + day / 36524 - day / 146096) / 365

theorem marchYear_mono {a b : Nat} (h : a ≤ b) : marchYear a ≤ marchYear b := by
  have hdays : ∀ {a b : Nat}, a ≤ b → a - a / 1460 ≤ b - b / 1460 := by omega
  have hcenturies : ∀ {a b : Nat}, a ≤ b → a - a / 4 ≤ b - b / 4 := by omega
  have hcycle : ∀ day : Nat, day / 146096 = day / 36524 / 4 := fun day =>
    (Nat.div_div_eq_div_mul day 36524 4).symm
  have hboth := Nat.add_le_add (hdays h) (hcenturies (Nat.div_le_div_right (c := 36524) h))
  apply Nat.div_le_div_right
  rw [hcycle, hcycle]
  omega

/-- The first and the last day of each year of a cycle. -/
theorem marchYear_ends : ∀ y : Fin 400, marchYear (marchDays y) = y ∧
    marchYear (marchDays y + (marchLength y - 1)) = y ∧
    marchDays y + (marchLength y - 1) < 146097 := by
  decide +kernel

theorem marchYear_add {y day : Nat} (hy : y < 400) (hday : day < marchLength y) :
    marchYear (marchDays y + day) = y ∧ marchDays y + day < 146097 := by
  obtain ⟨hfirst, hlast, hcycle⟩ := marchYear_ends ⟨y, hy⟩
  dsimp only at hfirst hlast hcycle
  have hlow := marchYear_mono (Nat.le_add_right (marchDays y) day)
  have hhigh := marchYear_mono (show marchDays y + day ≤ marchDays y + (marchLength y - 1) by omega)
  omega

/-! ### Months of such a year -/

/-- Days of a month, counted from the start of March, belong to that month. -/
theorem month_of_days : ∀ (month : Fin 13) (day : Fin 32), 1 ≤ month.val → 1 ≤ day.val →
    day.val ≤ monthLength 4 month →
    (5 * dayOfMarchYear month day + 2) / 153 = (month + 9) % 12 ∧
      dayOfMarchYear month day - (153 * ((month + 9) % 12) + 2) / 5 + 1 = day ∧
      dayOfMarchYear month day < (if month.val = 2 ∧ day.val = 29 then 366 else 365) := by
  decide +kernel

def yearFromMarch (d : CalendarDay) : Int :=
  if d.month ≤ 2 then d.year - 1 else d.year

theorem monthLength_le (year : Int) (month : Nat) : monthLength year month ≤ monthLength 4 month ∧
    monthLength 4 month < 32 := by
  unfold monthLength
  have hleap : isLeapYear 4 = true := rfl
  rw [hleap]
  split <;> split <;> simp

/-- A leap day comes at the end of a longer year. -/
theorem Listed.day_lt {d : CalendarDay} (h : d.Listed) {y : Nat} (hy : d.yearFromMarch % 400 = y) :
    dayOfMarchYear d.month d.day < marchLength y := by
  obtain ⟨hlength, hshort⟩ := monthLength_le d.year d.month
  have hmonth := h.month
  have hday := h.day
  obtain ⟨-, -, hlt⟩ := month_of_days ⟨d.month, by omega⟩ ⟨d.day, by omega⟩ hmonth.1 hday.1
    (by dsimp only; omega)
  dsimp only at hlt
  unfold marchLength
  split at hlt
  · next hleap =>
    have hleapYear : isLeapYear d.year = true := by
      cases hyear : isLeapYear d.year with
      | true => rfl
      | false =>
        rw [hleap.1, hleap.2, monthLength, hyear] at hday
        exact absurd hday.2 (by decide)
    simp only [isLeapYear, Bool.and_eq_true, Bool.or_eq_true, decide_eq_true_eq] at hleapYear
    rw [yearFromMarch, if_pos (show d.month ≤ 2 by omega)] at hy
    rw [if_pos (by omega)]
    exact hlt
  · split <;> omega

/-- The day of a number, by the cycle, the year and the month that the number falls in. -/
theorem ofDays_eq {days cycle : Int} {y day : Nat} (hy : y < 400) (hday : day < marchLength y)
    (hdays : days + 719468 = cycle * 146097 + (marchDays y + day : Nat)) :
    ofDays days =
      let month := if (5 * day + 2) / 153 < 10 then (5 * day + 2) / 153 + 3
        else (5 * day + 2) / 153 - 9
      ⟨cycle * 400 + y + (if month ≤ 2 then 1 else 0), month,
        day - (153 * ((5 * day + 2) / 153) + 2) / 5 + 1⟩ := by
  obtain ⟨hyear, hlt⟩ := marchYear_add hy hday
  have hcycle : (days + 719468) / 146097 = cycle := by omega
  have hofCycle : ((days + 719468) % 146097).toNat = marchDays y + day := by omega
  have hofYear : marchDays y + day - (365 * y + y / 4 - y / 100) = day := by
    unfold marchDays
    omega
  unfold marchYear at hyear
  unfold ofDays
  simp only [hcycle, hofCycle, hyear, hofYear]

theorem toDays_eq {d : CalendarDay} {y : Nat} (hy : d.yearFromMarch % 400 = y) :
    d.toDays + 719468 =
      d.yearFromMarch / 400 * 146097 + (marchDays y + dayOfMarchYear d.month d.day : Nat) := by
  have hdays : (marchDays y : Int) = (y : Int) * 365 + (y : Int) / 4 - (y : Int) / 100 := by
    unfold marchDays
    omega
  rw [Int.natCast_add, hdays, ← hy]
  unfold toDays yearFromMarch
  dsimp only
  omega

/-- Counting days and looking up the day of a number are inverse. -/
theorem ofDays_toDays {d : CalendarDay} (h : d.Listed) : ofDays d.toDays = d := by
  obtain ⟨y, hy⟩ : ∃ y : Nat, d.yearFromMarch % 400 = y := ⟨(d.yearFromMarch % 400).toNat, by omega⟩
  have hlength := monthLength_le d.year d.month
  have hmonth := h.month
  have hday := h.day
  obtain ⟨hmarch, hback, -⟩ := month_of_days ⟨d.month, by omega⟩ ⟨d.day, by omega⟩ hmonth.1 hday.1
    (by dsimp only; omega)
  dsimp only at hmarch hback
  have hof : (if (d.month + 9) % 12 < 10 then (d.month + 9) % 12 + 3
      else (d.month + 9) % 12 - 9) = d.month := by
    split <;> omega
  rw [ofDays_eq (by omega) (h.day_lt hy) (toDays_eq hy)]
  simp only [hmarch, hof, hback, ← hy]
  have hyear : d.yearFromMarch / 400 * 400 + d.yearFromMarch % 400 + (if d.month ≤ 2 then 1 else 0) =
      d.year := by
    unfold yearFromMarch
    split <;> omega
  rw [hyear]

end RecipeNet.CalendarDay
