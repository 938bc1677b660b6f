import RecipeNet.Text.Digits
import RecipeNet.Timestamp.Calendar

/-!
Points in time to the nanosecond, in universal time. A text gives the date, the
time of day, and a fraction of the second in groups of three digits, as many
groups as are needed.
-/

namespace RecipeNet

/-- A point in time. Second 60 is a leap second. -/
structure Timestamp where
  day : CalendarDay
  hour : Nat
  minute : Nat
  second : Nat
  nanos : Nat
deriving DecidableEq, Repr, Inhabited

namespace Timestamp

open Text

def ofUnixTime (seconds : Int) (nanos : Nat) : Timestamp :=
  let ofDay := (seconds % 86400).toNat
  { day := .ofDays (seconds / 86400)
    hour := ofDay / 3600
    minute := ofDay / 60 % 60
    second := ofDay % 60
    nanos }

/-- The point whose clock shows the given one at an offset in minutes to
universal time. Leap seconds stay leap seconds. -/
def ofLocal? (t : Timestamp) (offset : Int) : Option Timestamp :=
  let minutes := t.day.toDays * 1440 + (t.hour * 60 + t.minute : Nat) - offset
  let ofDay := (minutes % 1440).toNat
  let day := CalendarDay.ofDays (minutes / 1440)
  if CalendarDay.inRange day.year then
    some { t with day, hour := ofDay / 60, minute := ofDay % 60 }
  else none

/-- The text of a year: four digits, or a sign and at least four. -/
def yearChars (year : Int) : List Char :=
  if 0 ≤ year ∧ year ≤ 9999 then decimalDigits 4 year.toNat
  else
    let digits := decimal year.natAbs
    (if year < 0 then '-' else '+') :: (List.replicate (4 - digits.length) '0' ++ digits)

def fractionChars (nanos : Nat) : List Char :=
  if nanos = 0 then []
  else if nanos % 1000000 = 0 then '.' :: decimalDigits 3 (nanos / 1000000)
  else if nanos % 1000 = 0 then '.' :: decimalDigits 6 (nanos / 1000)
  else '.' :: decimalDigits 9 nanos

def chars (t : Timestamp) : List Char :=
  yearChars t.day.year ++ '-' :: (decimalDigits 2 t.day.month ++ '-' ::
    (decimalDigits 2 t.day.day ++ 'T' :: (decimalDigits 2 t.hour ++ ':' ::
      (decimalDigits 2 t.minute ++ ':' :: (decimalDigits 2 t.second ++
        (fractionChars t.nanos ++ ['Z']))))))

def text (t : Timestamp) : String :=
  String.ofList t.chars

end Timestamp
end RecipeNet
