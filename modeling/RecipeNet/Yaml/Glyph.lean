import RecipeNet.Text.Digits

/-!
A YAML text as a list of its characters with their places in it. Every line
break that YAML folds is the one character `\n` here, and the list ends with a
character that no text contains.
-/

namespace RecipeNet.Yaml

/-- A character and where it stands, counted in characters from zero. -/
structure Glyph where
  char : Char
  line : Nat
  column : Nat
  index : Nat
deriving Repr

def endMark : Char := '\x00'

def isAllowed (c : Char) : Bool :=
  let n := c.toNat
  n == 0x09 || n == 0x0A || n == 0x0D || (0x20 ≤ n && n ≤ 0x7E) || n == 0x85 ||
    (0xA0 ≤ n && n ≤ 0xD7FF) || (0xE000 ≤ n && n ≤ 0xFFFD) || 0x10000 ≤ n

def place (line column index : Nat) : List Char → List Glyph
  | [] => [⟨endMark, line, column, index⟩]
  | '\r' :: '\n' :: rest => ⟨'\n', line, column, index⟩ :: place (line + 1) 0 (index + 2) rest
  | c :: rest =>
    if c = '\n' ∨ c = '\r' ∨ c = '\u0085' then
      ⟨'\n', line, column, index⟩ :: place (line + 1) 0 (index + 1) rest
    else if c = '\u2028' ∨ c = '\u2029' then
      ⟨c, line, column, index⟩ :: place (line + 1) 0 (index + 1) rest
    else ⟨c, line, column, index⟩ :: place line (column + 1) (index + 1) rest

def glyphs? (text : String) : Option (List Glyph) :=
  let cs := text.toList
  if cs.all isAllowed then some (place 0 0 0 cs) else none

def isBreakChar (c : Char) : Bool :=
  c = '\n' || c = '\u2028' || c = '\u2029'

def isBlankChar (c : Char) : Bool :=
  c = ' ' || c = '\t'

namespace Glyph

def isEnd (g : Glyph) : Bool := g.char = endMark

def isBreak (g : Glyph) : Bool := isBreakChar g.char

def isBlank (g : Glyph) : Bool := isBlankChar g.char

def isBreakOrEnd (g : Glyph) : Bool := g.isBreak || g.isEnd

def isGap (g : Glyph) : Bool := g.isBlank || g.isBreakOrEnd

end Glyph

def isWordChar (c : Char) : Bool :=
  c.isAlphanum || c = '_' || c = '-'

def startsWithAny (cs : List Char) : List Glyph → Bool
  | [] => false
  | g :: _ => g.char ∈ cs

/-- Whether a list begins with a gap; the end of the list is one. -/
def startsWithGap : List Glyph → Bool
  | [] => true
  | g :: _ => g.isGap

/-- Whether a line begins with a character three times and then a gap. -/
def isDocumentMark (c : Char) : List Glyph → Bool
  | a :: b :: d :: rest =>
    a.column = 0 && a.char = c && b.char = c && d.char = c && startsWithGap rest
  | _ => false

def isAnyDocumentMark (gs : List Glyph) : Bool :=
  isDocumentMark '-' gs || isDocumentMark '.' gs

def textOf (gs : List Glyph) : String :=
  String.ofList (gs.map (·.char))

end RecipeNet.Yaml
