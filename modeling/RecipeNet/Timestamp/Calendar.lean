/-!
Days of the Gregorian calendar, continued to all years. Days are counted from
1970-01-01. Counting starts each year in March, which puts the leap day last.
-/

namespace RecipeNet

structure CalendarDay where
  year : Int
  month : Nat
  day : Nat
deriving DecidableEq, Repr, Inhabited

namespace CalendarDay

def isLeapYear (year : Int) : Bool :=
  year % 4 = 0 && (year % 100 ≠ 0 || year % 400 = 0)

def monthLength (year : Int) (month : Nat) : Nat :=
  if month = 2 then (if isLeapYear year then 29 else 28)
  else if month ∈ [4, 6, 9, 11] then 30
  else 31

def inRange (year : Int) : Bool :=
  -262143 ≤ year && year ≤ 262142

def ofNumbers? (year : Int) (month day : Nat) : Option CalendarDay :=
  if inRange year ∧ 1 ≤ month ∧ month ≤ 12 ∧ 1 ≤ day ∧ day ≤ monthLength year month then
    some ⟨year, month, day⟩
  else none

/-- The number of days from the start of March to a day, in a year that starts
in March. -/
def dayOfMarchYear (month day : Nat) : Nat :=
  (153 * ((month + 9) % 12) + 2) / 5 + day - 1

def toDays (d : CalendarDay) : Int :=
  let year := if d.month ≤ 2 then d.year - 1 else d.year
  let ofCycle := year % 400
  year / 400 * 146097 + (ofCycle * 365 + ofCycle / 4 - ofCycle / 100) +
    dayOfMarchYear d.month d.day - 719468

/-- The day at a distance from 1970-01-01. Four hundred years have 146097
days. -/
def ofDays (days : Int) : CalendarDay :=
  let shifted := days + 719468
  let dayOfCycle := (shifted % 146097).toNat
  let yearOfCycle := (dayOfCycle - dayOfCycle / 1460 + dayOfCycle / 36524 - dayOfCycle / 146096) / 365
  let dayOfYear := dayOfCycle - (365 * yearOfCycle + yearOfCycle / 4 - yearOfCycle / 100)
  let monthFromMarch := (5 * dayOfYear + 2) / 153
  let month := if monthFromMarch < 10 then monthFromMarch + 3 else monthFromMarch - 9
  { year := shifted / 146097 * 400 + yearOfCycle + (if month ≤ 2 then 1 else 0)
    month
    day := dayOfYear - (153 * monthFromMarch + 2) / 5 + 1 }

end CalendarDay
end RecipeNet
