import RecipeNet.Yaml.Node

/-!
YAML text of a node, in blocks of lines. A scalar is written in the style it
asks for as far as its characters allow: plain, else between single quotes,
else between double quotes, with escapes for what cannot be shown.
-/

namespace RecipeNet.Yaml.Printer

/-- Text so far, last character first, and how its line stands. -/
structure Pen where
  out : List Char := []
  column : Nat := 0
  /-- Whether the last thing written sets off what follows. -/
  spaced : Bool := true
  /-- Whether the line holds nothing but indentation and its marks. -/
  indented : Bool := true

namespace Pen

def put (p : Pen) (c : Char) : Pen :=
  { p with out := c :: p.out, column := p.column + 1 }

def putAll (p : Pen) (cs : List Char) : Pen :=
  cs.foldl put p

def endLine (p : Pen) (c : Char) : Pen :=
  { p with out := c :: p.out, column := 0 }

def indentTo (p : Pen) (indent : Nat) : Pen :=
  let p := if !p.indented || indent < p.column || (p.column = indent && !p.spaced) then p.endLine '\n' else p
  { p.putAll (List.replicate (indent - p.column) ' ') with spaced := true, indented := true }

def mark (p : Pen) (cs : List Char) (needsSpace spaced indented : Bool) : Pen :=
  let p := if needsSpace && !p.spaced then p.put ' ' else p
  let p := p.putAll cs
  { p with spaced, indented := p.indented && indented }

end Pen

def isBreak (c : Char) : Bool :=
  c = '\n' || c = '\r' || c = '\u0085' || c = '\u2028' || c = '\u2029'

/-- Blanks, breaks and the null character set words off. -/
def isGap (c : Char) : Bool :=
  c = ' ' || c = '\t' || c = '\x00' || isBreak c

def isShown (c : Char) : Bool :=
  let n := c.toNat
  n == 0x0A || (0x20 ≤ n && n ≤ 0x7E) || (0xA0 ≤ n && n ≤ 0xD7FF) ||
    (0xE000 ≤ n && n ≤ 0xFFFD && n != 0xFEFF)

structure Shape where
  multiline : Bool
  plain : Bool
  single : Bool
  block : Bool

/-- Whether a text has a character, given the ones before and after it, that
means something else at its place in a line. -/
def hasIndicator : Option Char → List Char → Bool
  | _, [] => false
  | before, c :: rest =>
    let gapAfter := match rest with
      | [] => true
      | d :: _ => isGap d
    let here := match before with
      | none =>
        c ∈ ['#', ',', '[', ']', '\x7b', '\x7d', '&', '*', '!', '|', '>', '\'', '"', '%', '@', '`'] ||
          ((c = '?' || c = ':' || c = '-') && gapAfter)
      | some b => (c = ':' && gapAfter) || (c = '#' && isGap b)
    here || hasIndicator (some c) rest

def hasPair (p q : Char → Bool) : List Char → Bool
  | a :: b :: rest => (p a && q b) || hasPair p q (b :: rest)
  | _ => false

def shapeOf (cs : List Char) : Shape :=
  if cs.isEmpty then { multiline := false, plain := true, single := true, block := false }
  else
    let isSpace (c : Char) : Bool := c = ' '
    let breaks := cs.any isBreak
    let special := cs.any (!isShown ·) || hasPair isSpace isBreak cs
    let breakSpace := hasPair isBreak isSpace cs
    let edge (c : Option Char) : Bool := c.any fun c => isSpace c || isBreak c
    let mark := cs.take 3 = ['-', '-', '-'] || cs.take 3 = ['.', '.', '.'] || hasIndicator none cs
    { multiline := breaks
      plain := !(special || breakSpace || breaks || edge cs.head? || edge cs.getLast? || mark)
      single := !(special || breakSpace)
      block := !(special || cs.getLast?.any isSpace) }

def styleFor (shape : Shape) (isEmpty simpleKey : Bool) (wanted : Style) : Style :=
  let style : Style := if simpleKey && shape.multiline then .doubleQuoted else wanted
  let style : Style := match style with
    | .plain => if !shape.plain || (isEmpty && simpleKey) then .singleQuoted else .plain
    | s => s
  match style with
  | .singleQuoted => if shape.single then .singleQuoted else .doubleQuoted
  | .literal => if shape.block && !simpleKey then .literal else .doubleQuoted
  | .folded => if shape.block && !simpleKey then .folded else .doubleQuoted
  | s => s

def escape (c : Char) : List Char :=
  let n := c.toNat
  if n = 0 then ['\\', '0']
  else if n = 7 then ['\\', 'a']
  else if n = 8 then ['\\', 'b']
  else if n = 9 then ['\\', 't']
  else if n = 10 then ['\\', 'n']
  else if n = 11 then ['\\', 'v']
  else if n = 12 then ['\\', 'f']
  else if n = 13 then ['\\', 'r']
  else if n = 0x1B then ['\\', 'e']
  else if c = '"' then ['\\', '"']
  else if c = '\\' then ['\\', '\\']
  else if n = 0x85 then ['\\', 'N']
  else if n = 0xA0 then ['\\', '_']
  else if n = 0x2028 then ['\\', 'L']
  else if n = 0x2029 then ['\\', 'P']
  else if n ≤ 0xFF then '\\' :: 'x' :: Text.hexDigitsUpper 2 n
  else if n ≤ 0xFFFF then '\\' :: 'u' :: Text.hexDigitsUpper 4 n
  else '\\' :: 'U' :: Text.hexDigitsUpper 8 n

def writePlain (p : Pen) (cs : List Char) : Pen :=
  let p := if !p.spaced && !cs.isEmpty then p.put ' ' else p
  { p.putAll cs with spaced := false, indented := false }

def writeDouble (p : Pen) (cs : List Char) : Pen :=
  let p := p.mark ['"'] true false false
  let p := cs.foldl (fun p c =>
    if !isShown c || isBreak c || c = '"' || c = '\\' then p.putAll (escape c) else p.put c) p
  { p.mark ['"'] false false false with spaced := false, indented := false }

/-- The characters of a text between single quotes; `broken` says that a line
has just ended. -/
def writeSingleFrom (indent : Nat) (broken : Bool) (p : Pen) : List Char → Pen
  | [] => if broken then p.indentTo indent else p
  | c :: rest =>
    if c = ' ' then writeSingleFrom indent broken (p.put c) rest
    else if isBreak c then
      let p := if !broken && c = '\n' then p.endLine '\n' else p
      writeSingleFrom indent true { p.endLine c with indented := true } rest
    else
      let p := if broken then p.indentTo indent else p
      let p := if c = '\'' then p.put '\'' else p
      writeSingleFrom indent false { p.put c with indented := false } rest

def writeSingle (indent : Nat) (p : Pen) (cs : List Char) : Pen :=
  let p := p.mark ['\''] true false false
  let p := writeSingleFrom indent false p cs
  { p.mark ['\''] false false false with spaced := false, indented := false }

/-- The marks after the indicator of a block: its indentation if it begins with
a blank or a break, and how its end is chomped. -/
def blockHints (cs : List Char) : List Char :=
  let indent := if cs.head?.any fun c => c = ' ' || isBreak c then ['2'] else []
  let chomp := match cs.reverse with
    | [] => ['-']
    | [c] => if isBreak c then ['+'] else ['-']
    | c :: b :: _ => if !isBreak c then ['-'] else if isBreak b then ['+'] else []
  indent ++ chomp

def writeLinesFrom (indent : Nat) (broken : Bool) (p : Pen) : List Char → Pen
  | [] => p
  | c :: rest =>
    if isBreak c then writeLinesFrom indent true { p.endLine c with indented := true } rest
    else
      let p := if broken then p.indentTo indent else p
      writeLinesFrom indent false { p.put c with indented := false } rest

def writeLiteral (indent : Nat) (p : Pen) (cs : List Char) : Pen :=
  let p := p.mark ['|'] true false false
  let p := p.mark (blockHints cs) false false false
  let p := { p.endLine '\n' with indented := true, spaced := true }
  writeLinesFrom indent true p cs

/-- A level of indentation deeper, where `none` is outside of everything. -/
def deeper (top : Nat) : Option Nat → Nat
  | none => top
  | some n => n + 2

def writeScalar (indent : Option Nat) (simpleKey : Bool) (p : Pen) (style : Style) (s : String) : Pen :=
  let cs := s.toList
  let indent := deeper 2 indent
  match styleFor (shapeOf cs) cs.isEmpty simpleKey style with
  | .plain => writePlain p cs
  | .singleQuoted => writeSingle indent p cs
  | .doubleQuoted => writeDouble p cs
  | .literal | .folded => writeLiteral indent p cs

def isSimpleKey : Node → Bool
  | .scalar _ _ _ s => !(shapeOf s.toList).multiline && s.utf8ByteSize ≤ 128
  | .alias _ => true
  | .seq _ _ items => items.isEmpty
  | .map _ _ entries => entries.isEmpty

mutual
/-- Writes a node at an indentation; `inMap` says that it is part of a map. -/
def writeNode (indent : Option Nat) (inMap simpleKey : Bool) (p : Pen) : Node → Pen
  | .scalar _ _ style s => writeScalar indent simpleKey p style s
  | .alias _ => p
  | .seq _ _ [] => (p.mark ['['] true true false).mark [']'] false false false
  | .seq _ _ (n :: rest) =>
    let indent := if inMap && !p.indented then indent.getD 0 else deeper 0 indent
    writeItems indent p (n :: rest)
  | .map _ _ [] => (p.mark ['\x7b'] true true false).mark ['\x7d'] false false false
  | .map _ _ (e :: rest) => writeEntries (deeper 0 indent) p (e :: rest)

def writeItems (indent : Nat) (p : Pen) : List Node → Pen
  | [] => p
  | n :: rest =>
    let p := (p.indentTo indent).mark ['-'] true false true
    writeItems indent (writeNode (some indent) false false p n) rest

def writeEntries (indent : Nat) (p : Pen) : List (Node × Node) → Pen
  | [] => p
  | (k, v) :: rest =>
    let p := p.indentTo indent
    let p :=
      if isSimpleKey k then (writeNode (some indent) true true p k).mark [':'] false false false
      else
        let p := writeNode (some indent) true false (p.mark ['?'] true false true) k
        (p.indentTo indent).mark [':'] true false true
    writeEntries indent (writeNode (some indent) true false p v) rest
end

def render (root : Node) : String :=
  let p := (writeNode none false false {} root).indentTo 0
  String.ofList p.out.reverse

end RecipeNet.Yaml.Printer
