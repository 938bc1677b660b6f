/-!
White space of running text, as the Unicode property White_Space lists it, and
the removal of it from both ends of a name.
-/

namespace RecipeNet.Text

/-- The 25 characters with the property White_Space. -/
def isBlank (c : Char) : Bool :=
  let n := c.toNat
  (9 ≤ n && n ≤ 13) || n == 0x20 || n == 0x85 || n == 0xA0 || n == 0x1680 ||
    (0x2000 ≤ n && n ≤ 0x200A) || n == 0x2028 || n == 0x2029 || n == 0x202F ||
    n == 0x205F || n == 0x3000

def dropBlankTail : List Char → List Char
  | [] => []
  | c :: rest =>
    match dropBlankTail rest with
    | [] => if isBlank c then [] else [c]
    | kept => c :: kept

def trimChars (cs : List Char) : List Char :=
  dropBlankTail (cs.dropWhile isBlank)

def trim (s : String) : String :=
  String.ofList (trimChars s.toList)

/-- The pieces of a list between the occurrences of one character. There is
always one more piece than there are occurrences. -/
def splitAt (mark : Char) : List Char → List (List Char)
  | [] => [[]]
  | c :: rest =>
    if c = mark then [] :: splitAt mark rest
    else
      match splitAt mark rest with
      | [] => [[c]]
      | piece :: pieces => (c :: piece) :: pieces

theorem splitAt_ne_nil (mark : Char) (cs : List Char) : splitAt mark cs ≠ [] := by
  induction cs with
  | nil => simp [splitAt]
  | cons c rest ih =>
    rw [splitAt]
    split
    · simp
    · split <;> simp

theorem dropBlankTail_append_blank {c : Char} (cs : List Char) (h : isBlank c = true) :
    dropBlankTail (cs ++ [c]) = dropBlankTail cs := by
  induction cs with
  | nil => simp [dropBlankTail, h]
  | cons d rest ih => simp [dropBlankTail, ih]

theorem dropBlankTail_append_nonblank {c : Char} (cs : List Char) (h : isBlank c = false) :
    dropBlankTail (cs ++ [c]) = cs ++ [c] := by
  induction cs with
  | nil => simp [dropBlankTail, h]
  | cons d rest ih =>
    rw [List.cons_append, dropBlankTail, ih]
    cases rest <;> simp

end RecipeNet.Text
