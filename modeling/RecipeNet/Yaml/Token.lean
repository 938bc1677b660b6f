import RecipeNet.Yaml.ScalarText

/-!
YAML text as tokens. Indentation becomes the start and end of block
collections. A key is recognised by the colon after it, so its marker is put in
where the key began, which a later colon on the same line may still ask for.
-/

namespace RecipeNet.Yaml

inductive Token where
  | versionDirective (major minor : Nat)
  | tagDirective (handle tagPrefix : String)
  | documentStart
  | documentEnd
  | streamEnd
  | blockSequenceStart
  | blockMappingStart
  | blockEnd
  | flowSequenceStart
  | flowSequenceEnd
  | flowMappingStart
  | flowMappingEnd
  | blockEntry
  | flowEntry
  | key
  | value
  | alias (name : String)
  | anchor (name : String)
  | tag (handle suffix : String)
  | scalar (style : Style) (text : String)
deriving DecidableEq, Repr

structure KeyStart where
  /-- Whether only a key may stand there. -/
  required : Bool
  /-- How many tokens came before it. -/
  position : Nat
  line : Nat
  column : Nat
  index : Nat

structure Lexer where
  rest : List Glyph
  tokens : Array Token := #[]
  /-- The column of the innermost block collection, -1 outside of all. -/
  indent : Int := -1
  /-- The columns of the enclosing ones. -/
  outer : List Int := []
  keyAllowed : Bool := true
  /-- Where a key may have begun, at each level of brackets, innermost first. -/
  keys : List (Option KeyStart) := [none]

namespace Lexer

def inFlow (l : Lexer) : Bool := 1 < l.keys.length

def line (l : Lexer) : Nat := (l.rest.head?.map (·.line)).getD 0

def column (l : Lexer) : Nat := (l.rest.head?.map (·.column)).getD 0

def index (l : Lexer) : Nat := (l.rest.head?.map (·.index)).getD 0

def emit (l : Lexer) (t : Token) : Lexer := { l with tokens := l.tokens.push t }

def skip (l : Lexer) (count : Nat) : Lexer := { l with rest := l.rest.drop count }

/-- Passes over blanks, comments and line breaks: the rest, and whether a key
may begin there. Tabs count as blanks only where no key may begin. -/
def skipGaps (inFlow : Bool) (keyAllowed inComment : Bool) : List Glyph → List Glyph × Bool
  | [] => ([], keyAllowed)
  | g :: rest =>
    if g.isBreak then skipGaps inFlow (keyAllowed || !inFlow) false rest
    else if g.isEnd then (g :: rest, keyAllowed)
    else if inComment then skipGaps inFlow keyAllowed true rest
    else if g.char = ' ' || (g.char = '\t' && (inFlow || !keyAllowed)) ||
        (g.char = '\ufeff' && g.column = 0) then
      skipGaps inFlow keyAllowed false rest
    else if g.char = '#' then skipGaps inFlow keyAllowed true rest
    else (g :: rest, keyAllowed)

/-- Whether a key that began somewhere can no longer be one here: keys stay
on their line and within 1024 characters. -/
def isStale (l : Lexer) (k : KeyStart) : Bool :=
  k.line < l.line || k.index + 1024 < l.index

/-- Gives up the keys that are stale; a required one must not be. -/
def dropStale? (l : Lexer) : Option Lexer :=
  if l.keys.any fun k => k.any fun k => k.required && l.isStale k then none
  else some { l with keys := l.keys.map fun k => k.filter fun k => !l.isStale k }

def removeKey? (l : Lexer) : Option Lexer :=
  match l.keys with
  | some k :: keys => if k.required then none else some { l with keys := none :: keys }
  | _ => some l

def saveKey? (l : Lexer) : Option Lexer :=
  if l.keyAllowed then do
    let l ← l.removeKey?
    let k : KeyStart :=
      { required := !l.inFlow && l.indent = (l.column : Int), position := l.tokens.size,
        line := l.line, column := l.column, index := l.index }
    some { l with keys := some k :: l.keys.tail }
  else some l

/-- Opens a block collection at a column, if it is deeper than the last; its
start goes to `position` among the tokens, or to their end. -/
def roll (l : Lexer) (column : Nat) (position : Option Nat) (start : Token) : Lexer :=
  if !l.inFlow && l.indent < (column : Int) then
    let tokens := match position with
      | some i => l.tokens.insertIdxIfInBounds i start
      | none => l.tokens.push start
    { l with tokens, indent := column, outer := l.indent :: l.outer }
  else l

/-- Ends the block collections whose columns, the innermost first, are deeper
than `column`: the tokens, and the columns left. -/
def closeDeeper (column : Int) (tokens : Array Token) : Int → List Int → Array Token × Int × List Int
  | indent, [] => (tokens, indent, [])
  | indent, next :: outer =>
    if column < indent then closeDeeper column (tokens.push .blockEnd) next outer
    else (tokens, indent, next :: outer)

def unroll (l : Lexer) (column : Int) : Lexer :=
  if l.inFlow then l
  else
    let (tokens, indent, outer) := closeDeeper column l.tokens l.indent l.outer
    { l with tokens, indent, outer }

def versionNumber? (gs : List Glyph) : Option (Nat × List Glyph) :=
  let ds := gs.takeWhile fun g => Text.isDigit g.char
  if ds.isEmpty || 9 < ds.length then none
  else some (Text.decimalValue (ds.map (·.char)), gs.drop ds.length)

/-- A tag handle at the front: an exclamation mark and then, unless it stands
alone, word characters. In a directive it ends with a second mark. -/
def tagHandle? (directive : Bool) (gs : List Glyph) : Option (List Char × List Glyph) :=
  match gs with
  | g :: rest =>
    if g.char ≠ '!' then none
    else
      let word := (rest.takeWhile fun h => isWordChar h.char).map (·.char)
      let rest := rest.drop word.length
      if startsWithAny ['!'] rest then some ('!' :: (word ++ ['!']), rest.drop 1)
      else if directive && !word.isEmpty then none
      else some ('!' :: word, rest)
  | [] => none

def octetCount? (n : Nat) : Option Nat :=
  if n < 0x80 then some 1
  else if 0xC0 ≤ n ∧ n < 0xE0 then some 2
  else if 0xE0 ≤ n ∧ n < 0xF0 then some 3
  else if 0xF0 ≤ n ∧ n < 0xF8 then some 4
  else none

def octet? : List Glyph → Option (Nat × List Glyph)
  | p :: a :: b :: rest =>
    if p.char = '%' then (Text.hexNumber? [a.char, b.char]).map (·, rest) else none
  | _ => none

def laterOctets? : Nat → Nat → List Glyph → Option (Nat × List Glyph)
  | 0, n, gs => some (n, gs)
  | count + 1, n, gs => do
    let (o, rest) ← octet? gs
    if 0x80 ≤ o ∧ o < 0xC0 then laterOctets? count (64 * n + (o - 0x80)) rest else none

def escapedChar? (gs : List Glyph) : Option (Char × List Glyph) := do
  let (o, rest) ← octet? gs
  let count ← octetCount? o
  let low := if count = 1 then o else if count = 2 then o - 0xC0 else if count = 3 then o - 0xE0
    else o - 0xF0
  let (n, rest) ← laterOctets? (count - 1) low rest
  some ((charAt? n).getD '\ufffd', rest)

def isTagChar (verbatim : Bool) (c : Char) : Bool :=
  isWordChar c || c ∈ [';', '/', '?', ':', '@', '&', '=', '+', '$', '.', '!', '~', '*', '\'', '(', ')'] ||
    (verbatim && c ∈ [',', '[', ']'])

def tagChars? (verbatim : Bool) : Nat → List Char → List Glyph → Option (List Char × List Glyph)
  | 0, out, gs => some (out.reverse, gs)
  | fuel + 1, out, gs =>
    match gs with
    | [] => some (out.reverse, [])
    | g :: rest =>
      if isTagChar verbatim g.char then tagChars? verbatim fuel (g.char :: out) rest
      else if g.char = '%' then do
        let (c, rest) ← escapedChar? gs
        tagChars? verbatim fuel (c :: out) rest
      else some (out.reverse, gs)

def tagParts? (gs : List Glyph) : Option (String × String × List Glyph) :=
  if startsWithAny ['<'] (gs.drop 1) then do
    let (uri, rest) ← tagChars? true gs.length [] (gs.drop 2)
    if uri.isEmpty || !startsWithAny ['>'] rest then none
    else some ("", String.ofList uri, rest.drop 1)
  else do
    let (handle, rest) ← tagHandle? false gs
    if 1 < handle.length && handle.getLast? == some '!' then
      let (suffix, rest) ← tagChars? false gs.length [] rest
      if suffix.isEmpty then none
      else some (String.ofList handle, String.ofList suffix, rest)
    else
      let (more, rest) ← tagChars? false gs.length [] rest
      let suffix := handle.drop 1 ++ more
      if suffix.isEmpty then some ("", "!", rest)
      else some ("!", String.ofList suffix, rest)

def directive? (gs : List Glyph) : Option (Token × List Glyph) := do
  let name := (gs.takeWhile fun g => isWordChar g.char).map (·.char)
  let rest := gs.drop name.length
  if !startsWithGap rest then none
  else
    let rest := rest.dropWhile (·.isBlank)
    if name = ['Y', 'A', 'M', 'L'] then
      let (major, rest) ← versionNumber? rest
      if !startsWithAny ['.'] rest then none
      else
        let (minor, rest) ← versionNumber? (rest.drop 1)
        let rest ← endOfLine? rest
        some (.versionDirective major minor, rest)
    else if name = ['T', 'A', 'G'] then
      let (handle, rest) ← tagHandle? true rest
      if !(rest.head?.any (·.isBlank)) then none
      else
        let (uri, rest) ← tagChars? true gs.length [] (rest.dropWhile (·.isBlank))
        if uri.isEmpty || !startsWithGap rest then none
        else
          let rest ← endOfLine? rest
          some (.tagDirective (String.ofList handle) (String.ofList uri), rest)
    else none

def anchorName? (gs : List Glyph) : Option (String × List Glyph) :=
  let name := (gs.takeWhile fun g => isWordChar g.char).map (·.char)
  let rest := gs.drop name.length
  if name.isEmpty then none
  else if startsWithGap rest || startsWithAny ['?', ':', ',', ']', '\x7d', '%', '@', '`'] rest then
    some (String.ofList name, rest)
  else none

/-- Reads a directive or a document mark, which end all that is open. -/
def topLevel? (l : Lexer) (read : List Glyph → Option (Token × List Glyph)) : Option Lexer := do
  let l ← (l.unroll (-1)).removeKey?
  let (t, rest) ← read l.rest
  some { (l.emit t) with rest, keyAllowed := false }

def openFlow? (l : Lexer) (t : Token) : Option Lexer := do
  let l ← l.saveKey?
  some { ((l.emit t).skip 1) with keys := none :: l.keys, keyAllowed := true }

def closeFlow? (l : Lexer) (t : Token) : Option Lexer := do
  let l ← l.removeKey?
  let keys := match l.keys with
    | _ :: k :: keys => k :: keys
    | keys => keys
  some { ((l.emit t).skip 1) with keys, keyAllowed := false }

def flowEntry? (l : Lexer) : Option Lexer := do
  let l ← l.removeKey?
  some { ((l.emit .flowEntry).skip 1) with keyAllowed := true }

def blockEntry? (l : Lexer) : Option Lexer :=
  if !l.inFlow && !l.keyAllowed then none
  else do
    let l ← (l.roll l.column none .blockSequenceStart).removeKey?
    some { ((l.emit .blockEntry).skip 1) with keyAllowed := true }

def explicitKey? (l : Lexer) : Option Lexer :=
  if !l.inFlow && !l.keyAllowed then none
  else do
    let l ← (l.roll l.column none .blockMappingStart).removeKey?
    some { ((l.emit .key).skip 1) with keyAllowed := !l.inFlow }

def value? (l : Lexer) : Option Lexer :=
  match l.keys with
  | some k :: keys =>
    let l := { l with tokens := l.tokens.insertIdxIfInBounds k.position .key, keys := none :: keys }
    let l := l.roll k.column (some k.position) .blockMappingStart
    some { ((l.emit .value).skip 1) with keyAllowed := false }
  | _ =>
    if !l.inFlow && !l.keyAllowed then none
    else
      let l := l.roll l.column none .blockMappingStart
      some { ((l.emit .value).skip 1) with keyAllowed := !l.inFlow }

def property? (l : Lexer) (read : List Glyph → Option (Token × List Glyph)) : Option Lexer := do
  let l ← l.saveKey?
  let (t, rest) ← read l.rest
  some { (l.emit t) with rest, keyAllowed := false }

def readTag? (inFlow : Bool) (gs : List Glyph) : Option (Token × List Glyph) := do
  let (handle, suffix, rest) ← tagParts? gs
  if startsWithGap rest || (inFlow && startsWithAny [','] rest) then
    some (.tag handle suffix, rest)
  else none

def blockScalar? (l : Lexer) (literal : Bool) : Option Lexer := do
  let l ← l.removeKey?
  let s ← scanBlock literal l.indent (l.rest.drop 1)
  let style := if literal then Style.literal else .folded
  some { (l.emit (.scalar style s.text)) with rest := s.rest, keyAllowed := true }

def quotedScalar? (l : Lexer) (single : Bool) : Option Lexer := do
  let l ← l.saveKey?
  let s ← scanQuotedFrom single [] none none (l.rest.drop 1)
  let style := if single then Style.singleQuoted else .doubleQuoted
  some { (l.emit (.scalar style s.text)) with rest := s.rest, keyAllowed := false }

def plainScalar? (l : Lexer) : Option Lexer := do
  let l ← l.saveKey?
  let s ← scanPlainFrom l.inFlow (l.indent + 1) [] none l.rest
  some { (l.emit (.scalar .plain s.text)) with rest := s.rest, keyAllowed := s.broken }

/-- Characters that no plain scalar begins with, three of them unless a word
follows. -/
def indicators : List Char :=
  ['-', '?', ':', ',', '[', ']', '\x7b', '\x7d', '#', '&', '*', '!', '|', '>', '\'', '"', '%', '@', '`']

def startsPlain (inFlow : Bool) : List Glyph → Bool
  | [] => false
  | g :: rest =>
    (!g.isGap && g.char ∉ indicators) ||
      (g.char = '-' && !rest.head?.any (·.isBlank)) ||
      (!inFlow && (g.char = '?' || g.char = ':') && !startsWithGap rest)

def dispatch? (l : Lexer) : Option Lexer :=
  match l.rest with
  | [] => none
  | g :: rest =>
    let c := g.char
    let gapNext := startsWithGap rest
    if g.column = 0 && c = '%' then l.topLevel? fun gs => directive? (gs.drop 1)
    else if isDocumentMark '-' l.rest then l.topLevel? fun gs => some (.documentStart, gs.drop 3)
    else if isDocumentMark '.' l.rest then l.topLevel? fun gs => some (.documentEnd, gs.drop 3)
    else if c = '[' then l.openFlow? .flowSequenceStart
    else if c = '\x7b' then l.openFlow? .flowMappingStart
    else if c = ']' then l.closeFlow? .flowSequenceEnd
    else if c = '\x7d' then l.closeFlow? .flowMappingEnd
    else if c = ',' then l.flowEntry?
    else if c = '-' && gapNext then l.blockEntry?
    else if c = '?' && (l.inFlow || gapNext) then l.explicitKey?
    else if c = ':' && (l.inFlow || gapNext) then l.value?
    else if c = '*' then
      l.property? fun gs => (anchorName? (gs.drop 1)).map fun (n, rest) => (.alias n, rest)
    else if c = '&' then
      l.property? fun gs => (anchorName? (gs.drop 1)).map fun (n, rest) => (.anchor n, rest)
    else if c = '!' then l.property? (readTag? l.inFlow)
    else if c = '|' && !l.inFlow then l.blockScalar? true
    else if c = '>' && !l.inFlow then l.blockScalar? false
    else if c = '\'' then l.quotedScalar? true
    else if c = '"' then l.quotedScalar? false
    else if startsPlain l.inFlow l.rest then l.plainScalar?
    else none

def run? : Nat → Lexer → Option (Array Token)
  | 0, _ => none
  | fuel + 1, l => do
    let (rest, keyAllowed) := skipGaps l.inFlow l.keyAllowed false l.rest
    let l ← ({ l with rest, keyAllowed } : Lexer).dropStale?
    let l := l.unroll l.column
    if l.rest.head?.all (·.isEnd) then
      let l ← (l.unroll (-1)).removeKey?
      some (l.tokens.push .streamEnd)
    else
      let l ← l.dispatch?
      run? fuel l

end Lexer

def tokens? (text : String) : Option (List Token) := do
  let gs ← glyphs? text
  let tokens ← Lexer.run? (gs.length + 1) { rest := gs }
  some tokens.toList

end RecipeNet.Yaml
