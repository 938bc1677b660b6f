import RecipeNet.Yaml.Glyph

/-!
The texts of scalars as they are written: plain, in quotes, or as a block of
lines. A line break between words becomes a blank, and further breaks stay.
-/

namespace RecipeNet.Yaml

inductive Style where
  | plain
  | singleQuoted
  | doubleQuoted
  | literal
  | folded
deriving DecidableEq, Repr

structure Gap where
  /-- Blanks on the line of the word, last one first. -/
  blanks : List Char := []
  /-- Whether the line has ended. -/
  broken : Bool := false
  /-- The break that ended it, unless it was escaped. -/
  first : Option Char := none
  /-- Breaks after the first, last one first. -/
  later : List Char := []
deriving Repr

namespace Gap

/-- The gap with one more blank or break. Blanks after a break do not count. -/
def push (gap : Gap) (g : Glyph) : Gap :=
  if g.isBlank then
    if gap.broken then gap else { gap with blanks := g.char :: gap.blanks }
  else if gap.broken then { gap with later := g.char :: gap.later }
  else { blanks := [], broken := true, first := some g.char, later := [] }

/-- What stands for the gap between two words, last character first. -/
def folded (gap : Gap) : List Char :=
  if gap.broken then
    match gap.first with
    | some '\n' => if gap.later.isEmpty then [' '] else gap.later
    | some b => gap.later ++ [b]
    | none => gap.later
  else gap.blanks

end Gap

structure Scanned where
  text : String
  rest : List Glyph
  /-- Whether a line break was passed after the last word. -/
  broken : Bool := false

def flowEnds : List Char := [',', '[', ']', '\x7b', '\x7d']

def plainEnds (inFlow : Bool) : List Glyph → Bool
  | [] => true
  | g :: rest => (g.char = ':' && startsWithGap rest) || (inFlow && g.char ∈ flowEnds)

/-- A colon within brackets that can belong neither to a word nor to a pair. -/
def plainColonError (inFlow : Bool) : List Glyph → Bool
  | [] => false
  | g :: rest => inFlow && g.char = ':' && startsWithAny [',', '?', '[', ']', '\x7b', '\x7d'] rest

/-- Scans a plain scalar. `indent` is the least column of its further lines,
`out` its text so far with the last character first, and `gap` what followed
the last word, if anything did. -/
def scanPlainFrom (inFlow : Bool) (indent : Int) (out : List Char) (gap : Option Gap) :
    List Glyph → Option Scanned
  | [] => some ⟨String.ofList out.reverse, [], false⟩
  | g :: rest =>
    let broken := (gap.map (·.broken)).getD false
    let stop : Option Scanned := some ⟨String.ofList out.reverse, g :: rest, broken⟩
    if g.isBlank || g.isBreak then
      if broken && g.char = '\t' && (g.column : Int) < indent then none
      else scanPlainFrom inFlow indent out (some ((gap.getD {}).push g)) rest
    else if gap.isSome && !inFlow && (g.column : Int) < indent then stop
    else if (gap.isSome || out.isEmpty) && (isAnyDocumentMark (g :: rest) || g.char = '#') then stop
    else if g.isEnd then stop
    else if plainColonError inFlow (g :: rest) then none
    else if plainEnds inFlow (g :: rest) then stop
    else scanPlainFrom inFlow indent (g.char :: ((gap.map (·.folded)).getD [] ++ out)) none rest

def unescape? : Char → Option Char
  | '0' => some '\x00'
  | 'a' => some '\x07'
  | 'b' => some '\x08'
  | 't' => some '\t'
  | '\t' => some '\t'
  | 'n' => some '\n'
  | 'v' => some '\x0b'
  | 'f' => some '\x0c'
  | 'r' => some '\r'
  | 'e' => some '\x1b'
  | ' ' => some ' '
  | '"' => some '"'
  | '/' => some '/'
  | '\\' => some '\\'
  | 'N' => some '\u0085'
  | '_' => some '\u00a0'
  | 'L' => some '\u2028'
  | 'P' => some '\u2029'
  | _ => none

def escapeLength? : Char → Option Nat
  | 'x' => some 2
  | 'u' => some 4
  | 'U' => some 8
  | _ => none

def charAt? (n : Nat) : Option Char :=
  if n.isValidChar then some (Char.ofNat n) else none

/-- Scans a quoted scalar after its opening quote. `hex` holds the digits that
an escape still lacks and the number they make so far. -/
def scanQuotedFrom (single : Bool) (out : List Char) (gap : Option Gap) (hex : Option (Nat × Nat)) :
    List Glyph → Option Scanned
  | [] => none
  | g :: rest =>
    match hex with
    | some (missing, n) => do
      let d ← Text.hexValue? g.char
      let n := 16 * n + d
      if missing = 1 then
        let c ← charAt? n
        scanQuotedFrom single (c :: out) none none rest
      else scanQuotedFrom single out none (some (missing - 1, n)) rest
    | none =>
      if g.isBlank || g.isBreak then
        scanQuotedFrom single out (some ((gap.getD {}).push g)) none rest
      else if g.isEnd || isAnyDocumentMark (g :: rest) then none
      else
        let out := (gap.map (·.folded)).getD [] ++ out
        if single then
          if g.char = '\'' then
            match rest with
            | h :: more =>
              if h.char = '\'' then scanQuotedFrom single ('\'' :: out) none none more
              else some ⟨String.ofList out.reverse, h :: more, false⟩
            | [] => none
          else scanQuotedFrom single (g.char :: out) none none rest
        else if g.char = '"' then some ⟨String.ofList out.reverse, rest, false⟩
        else if g.char = '\\' then
          match rest with
          | h :: more =>
            if h.isBreak then scanQuotedFrom single out (some { broken := true }) none more
            else
              match escapeLength? h.char with
              | some count => scanQuotedFrom single out none (some (count, 0)) more
              | none => do
                let c ← unescape? h.char
                scanQuotedFrom single (c :: out) none none more
          | [] => none
        else scanQuotedFrom single (g.char :: out) none none rest

inductive Chomp where
  | strip
  | clip
  | keep
deriving DecidableEq, Repr

/-- The marks after the indicator of a block scalar: how its end is chomped and
how far it is indented, if that is given. -/
def blockHeader? (gs : List Glyph) : Option (Chomp × Option Nat × List Glyph) :=
  let chomp? : List Glyph → Option (Chomp × List Glyph)
    | [] => none
    | g :: rest =>
      if g.char = '+' then some (.keep, rest)
      else if g.char = '-' then some (.strip, rest)
      else none
  let digit? : List Glyph → Option (Nat × List Glyph)
    | [] => none
    | g :: rest => if Text.isDigit g.char then some (g.char.toNat - 48, rest) else none
  match chomp? gs with
  | some (chomp, rest) =>
    match digit? rest with
    | some (n, rest) => if n = 0 then none else some (chomp, some n, rest)
    | none => some (chomp, none, rest)
  | none =>
    match digit? gs with
    | some (n, rest) =>
      if n = 0 then none
      else
        match chomp? rest with
        | some (chomp, rest) => some (chomp, some n, rest)
        | none => some (.clip, some n, rest)
    | none => some (.clip, none, gs)

def endOfLine? (gs : List Glyph) : Option (List Glyph) :=
  let gs := gs.dropWhile (·.isBlank)
  let gs := if startsWithAny ['#'] gs then gs.dropWhile (!·.isBreakOrEnd) else gs
  match gs with
  | g :: rest => if g.isBreak then some rest else if g.isEnd then some (g :: rest) else none
  | [] => some []

/-- Passes over indentation and empty lines: the breaks of those lines, the
deepest column reached, and the rest. An indentation that is not known yet
takes in all blanks. -/
def blockBreaks (indent : Option Nat) (breaks : List Char) (deepest : Nat) :
    List Glyph → Option (List Char × Nat × List Glyph)
  | [] => some (breaks, deepest, [])
  | g :: rest =>
    let before := match indent with
      | none => true
      | some n => g.column < n
    if before && g.char = ' ' then blockBreaks indent breaks deepest rest
    else
      let deepest := max deepest g.column
      if before && g.char = '\t' then none
      else if g.isBreak then blockBreaks indent (breaks ++ [g.char]) deepest rest
      else some (breaks, deepest, g :: rest)

structure Block where
  text : List Char := []
  /-- The break after the last line. -/
  first : List Char := []
  /-- The breaks of the empty lines after it. -/
  later : List Char := []
  /-- Whether the last line began with a blank. -/
  indented : Bool := false

def Block.addLine (b : Block) (literal startsBlank : Bool) (line : List Char) : Block :=
  let folds := !literal && b.first = ['\n'] && !b.indented && !startsBlank
  let joint := if folds then (if b.later.isEmpty then [' '] else b.later) else b.first ++ b.later
  { b with text := b.text ++ joint ++ line, indented := startsBlank }

def blockLines (literal : Bool) (indent : Nat) : Nat → Block → List Glyph →
    Option (Block × List Glyph)
  | 0, b, gs => some (b, gs)
  | fuel + 1, b, gs =>
    match gs with
    | [] => some (b, [])
    | g :: _ =>
      if g.column ≠ indent ∨ g.isEnd then some (b, gs)
      else do
        let line := gs.takeWhile (!·.isBreakOrEnd)
        let b := b.addLine literal g.isBlank (line.map (·.char))
        let (first, rest) := match gs.dropWhile (!·.isBreakOrEnd) with
          | h :: more => if h.isBreak then ([h.char], more) else ([], h :: more)
          | [] => ([], [])
        let (later, _, rest) ← blockBreaks (some indent) [] 0 rest
        blockLines literal indent fuel { b with first, later } rest

/-- Scans a block scalar after its indicator, in a block that is indented by
`parent`. -/
def scanBlock (literal : Bool) (parent : Int) (gs : List Glyph) : Option Scanned := do
  let (chomp, given, rest) ← blockHeader? gs
  let rest ← endOfLine? rest
  let known := given.map fun n => if 0 ≤ parent then parent.toNat + n else n
  let (later, deepest, rest) ← blockBreaks known [] 0 rest
  let indent := known.getD (max (max deepest (parent + 1).toNat) 1)
  let (b, rest) ← blockLines literal indent rest.length { later } rest
  let tail := match chomp with
    | .strip => []
    | .clip => b.first
    | .keep => b.first ++ b.later
  some ⟨String.ofList (b.text ++ tail), rest, false⟩

end RecipeNet.Yaml
