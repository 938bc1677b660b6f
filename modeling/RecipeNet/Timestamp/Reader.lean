import RecipeNet.Text.Blank
import RecipeNet.Timestamp.Basic

/-!
Points in time read from texts. The numbers may be shorter than they are
written, blanks may stand before them and around the separators, and the clock
may be at an offset to universal time.
-/

namespace RecipeNet.Timestamp

open Text

def skipBlanks (cs : List Char) : List Char :=
  cs.dropWhile isBlank

def readNumber (width : Nat) (cs : List Char) : Option (Nat × List Char) :=
  let cs := skipBlanks cs
  let digits := (cs.take width).takeWhile isDigit
  if digits.isEmpty then none else some (decimalValue digits, cs.drop digits.length)

/-- A year: up to four digits, or a sign and any number of digits. -/
def readYear (cs : List Char) : Option (Int × List Char) :=
  match skipBlanks cs with
  | '-' :: rest => do
    let digits := rest.takeWhile isDigit
    if digits.isEmpty then none else some (-(decimalValue digits : Int), rest.drop digits.length)
  | '+' :: rest => do
    let digits := rest.takeWhile isDigit
    if digits.isEmpty then none else some ((decimalValue digits : Int), rest.drop digits.length)
  | cs => (readNumber 4 cs).map fun (n, rest) => ((n : Int), rest)

def readMark (mark : Char) (cs : List Char) : Option (List Char) :=
  match skipBlanks cs with
  | c :: rest => if c = mark then some rest else none
  | [] => none

def readDay (cs : List Char) : Option (CalendarDay × List Char) := do
  let (year, cs) ← readYear cs
  let cs ← readMark '-' cs
  let (month, cs) ← readNumber 2 cs
  let cs ← readMark '-' cs
  let (day, cs) ← readNumber 2 cs
  let date ← CalendarDay.ofNumbers? year month day
  some (date, cs)

/-- The fraction of a second in nanoseconds, if there is one. Digits after the
ninth do not count. -/
def readFraction : List Char → Option (Nat × List Char)
  | '.' :: rest =>
    let digits := rest.takeWhile isDigit
    if digits.isEmpty then none
    else
      let kept := digits.take 9
      some (decimalValue kept * Nat.pow 10 (9 - kept.length), rest.drop digits.length)
  | cs => some (0, cs)

def readPair (cs : List Char) : Option (Nat × List Char) :=
  match cs with
  | a :: b :: rest => if isDigit a && isDigit b then some (decimalValue [a, b], rest) else none
  | _ => none

def readSign : List Char → Option (Int × List Char)
  | '+' :: rest => some (1, rest)
  | '-' :: rest => some (-1, rest)
  | '−' :: rest => some (-1, rest)
  | _ => none

/-- An offset to universal time in minutes. -/
def readOffset (cs : List Char) : Option (Int × List Char) :=
  match cs with
  | 'z' :: rest | 'Z' :: rest => some (0, rest)
  | u :: t :: c :: rest =>
    if [u.toLower, t.toLower, c.toLower] = ['u', 't', 'c'] then some (0, rest) else signed cs
  | _ => signed cs
where
  /-- Hours and minutes after a sign; colons and blanks may stand between. -/
  signed (cs : List Char) : Option (Int × List Char) := do
    let (sign, cs) ← readSign cs
    let (hours, cs) ← readPair cs
    let (minutes, cs) ← readPair (cs.dropWhile fun c => c = ':' || isBlank c)
    if minutes < 60 ∧ hours < 24 then some (sign * (hours * 60 + minutes : Nat), cs) else none

def readClock (day : CalendarDay) (cs : List Char) : Option (Timestamp × List Char) := do
  let (hour, cs) ← readNumber 2 cs
  let cs ← readMark ':' cs
  let (minute, cs) ← readNumber 2 cs
  let cs ← readMark ':' cs
  let (second, cs) ← readNumber 2 cs
  let (nanos, cs) ← readFraction cs
  if hour < 24 ∧ minute < 60 ∧ second ≤ 60 then some (⟨day, hour, minute, second, nanos⟩, cs)
  else none

def ofChars? (cs : List Char) : Option Timestamp := do
  let (day, cs) ← readDay cs
  match cs with
  | mark :: cs =>
    if mark ∈ ['t', 'T', ' '] then
      let (clock, cs) ← readClock day cs
      let (offset, cs) ← readOffset (skipBlanks cs)
      if (skipBlanks cs).isEmpty then clock.ofLocal? offset else none
    else none
  | [] => none

def parse? (s : String) : Option Timestamp :=
  ofChars? s.toList

end RecipeNet.Timestamp
