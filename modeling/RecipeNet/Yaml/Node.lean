import RecipeNet.Yaml.Token

/-!
YAML documents as trees of nodes. Aliases stay in the tree and name the node
they stand for by a number, which several nodes may carry: the last one of the
document counts.
-/

namespace RecipeNet.Yaml

inductive Node where
  | scalar (anchor : Option Nat) (tag : Option String) (style : Style) (text : String)
  | seq (anchor : Option Nat) (tag : Option String) (items : List Node)
  | map (anchor : Option Nat) (tag : Option String) (entries : List (Node × Node))
  | alias (target : Nat)
deriving Inhabited, Repr

namespace Node

def blank : Node := .scalar none none .plain ""

mutual
/-- The nodes with a number, each before those within it. -/
def anchored : Node → List (Nat × Node)
  | .scalar a tag style text => (a.map (·, .scalar a tag style text)).toList
  | .seq a tag items => (a.map (·, .seq a tag items)).toList ++ anchoredItems items
  | .map a tag entries => (a.map (·, .map a tag entries)).toList ++ anchoredEntries entries
  | .alias _ => []

def anchoredItems : List Node → List (Nat × Node)
  | [] => []
  | n :: rest => anchored n ++ anchoredItems rest

def anchoredEntries : List (Node × Node) → List (Nat × Node)
  | [] => []
  | (k, v) :: rest => anchored k ++ anchored v ++ anchoredEntries rest
end

mutual
/-- How many events write a node: one for a scalar or an alias, and two more
than its parts for a collection. -/
def eventCount : Node → Nat
  | .scalar _ _ _ _ => 1
  | .seq _ _ items => 2 + eventCountItems items
  | .map _ _ entries => 2 + eventCountEntries entries
  | .alias _ => 1

def eventCountItems : List Node → Nat
  | [] => 0
  | n :: rest => eventCount n + eventCountItems rest

def eventCountEntries : List (Node × Node) → Nat
  | [] => 0
  | (k, v) :: rest => eventCount k + eventCount v + eventCountEntries rest
end

end Node

structure Reader where
  tokens : List Token
  /-- The numbers of the anchors, by name. -/
  names : List (String × Nat) := []
  /-- The prefixes that tag handles stand for. -/
  handles : List (String × String) := []

namespace Reader

def next (r : Reader) : Token := r.tokens.headD .streamEnd

def skip (r : Reader) : Reader := { r with tokens := r.tokens.tail }

/-- Gives an anchor the number of names known before it. -/
def nameAnchor (r : Reader) (name : String) : Nat × Reader :=
  let n := r.names.length
  (n, { r with names := (name, n) :: r.names.filter (·.1 ≠ name) })

def fullTag? (r : Reader) (handle suffix : String) : Option String :=
  if handle.isEmpty then some suffix else (r.handles.lookup handle).map (· ++ suffix)

def properties? (r : Reader) : Option (Option Nat × Option String × Reader) :=
  match r.next with
  | .anchor name =>
    let (a, r) := r.skip.nameAnchor name
    match r.next with
    | .tag handle suffix => (r.fullTag? handle suffix).map fun t => (some a, some t, r.skip)
    | _ => some (some a, none, r)
  | .tag handle suffix => do
    let t ← r.fullTag? handle suffix
    match r.skip.next with
    | .anchor name =>
      let (a, r) := r.skip.skip.nameAnchor name
      some (some a, some t, r)
    | _ => some (none, some t, r.skip)
  | _ => some (none, none, r)

/-- Tokens before which an entry of a block mapping is blank. -/
def endsBlockEntry : Token → Bool
  | .key | .value | .blockEnd => true
  | _ => false

/-- Tokens before which an item of a sequence without its own indentation is
blank. -/
def endsIndentlessItem : Token → Bool
  | .blockEntry | .key | .value | .blockEnd => true
  | _ => false

/-- Tokens before which an item of a block sequence is blank. -/
def endsBlockItem : Token → Bool
  | .blockEntry | .blockEnd => true
  | _ => false

/-- Tokens before which a key or value within braces is blank. -/
def endsFlowEntry : Token → Bool
  | .flowEntry | .flowMappingEnd => true
  | _ => false

/-- Tokens before which a value of a pair within brackets is blank. -/
def endsFlowPair : Token → Bool
  | .flowEntry | .flowSequenceEnd => true
  | _ => false

mutual
/-- A node. Block collections are allowed where `block` says so, and a sequence
that is not indented where `indentless` does. -/
def node? : Nat → Bool → Bool → Reader → Option (Node × Reader)
  | 0, _, _, _ => none
  | fuel + 1, block, indentless, r =>
    match r.next with
    | .alias name => (r.names.lookup name).map fun n => (.alias n, r.skip)
    | _ => do
      let (a, t, r) ← r.properties?
      match r.next with
      | .scalar style text =>
        let t := if t = some "!" then none else t
        some (.scalar a t style text, r.skip)
      | .flowSequenceStart =>
        let (items, r) ← flowItems? fuel true r.skip
        some (.seq a t items, r)
      | .flowMappingStart =>
        let (entries, r) ← flowEntries? fuel true r.skip
        some (.map a t entries, r)
      | .blockEntry =>
        if indentless then
          let (items, r) ← indentlessItems? fuel r
          some (.seq a t items, r)
        else if a.isSome || t.isSome then some (.scalar a t .plain "", r)
        else none
      | .blockSequenceStart =>
        if block then
          let (items, r) ← blockItems? fuel r.skip
          some (.seq a t items, r)
        else if a.isSome || t.isSome then some (.scalar a t .plain "", r)
        else none
      | .blockMappingStart =>
        if block then
          let (entries, r) ← blockEntries? fuel r.skip
          some (.map a t entries, r)
        else if a.isSome || t.isSome then some (.scalar a t .plain "", r)
        else none
      | _ => if a.isSome || t.isSome then some (.scalar a t .plain "", r) else none

def blockItems? : Nat → Reader → Option (List Node × Reader)
  | 0, _ => none
  | fuel + 1, r =>
    match r.next with
    | .blockEnd => some ([], r.skip)
    | .blockEntry => do
      let r := r.skip
      let (n, r) ← if endsBlockItem r.next then some (Node.blank, r) else node? fuel true false r
      let (items, r) ← blockItems? fuel r
      some (n :: items, r)
    | _ => none

def indentlessItems? : Nat → Reader → Option (List Node × Reader)
  | 0, _ => none
  | fuel + 1, r =>
    match r.next with
    | .blockEntry => do
      let r := r.skip
      let (n, r) ←
        if endsIndentlessItem r.next then some (Node.blank, r) else node? fuel true false r
      let (items, r) ← indentlessItems? fuel r
      some (n :: items, r)
    | _ => some ([], r)

def blockEntries? : Nat → Reader → Option (List (Node × Node) × Reader)
  | 0, _ => none
  | fuel + 1, r =>
    match r.next with
    | .blockEnd => some ([], r.skip)
    | .key => do
      let r := r.skip
      let (k, r) ← if endsBlockEntry r.next then some (Node.blank, r) else node? fuel true true r
      let (v, r) ←
        if r.next = .value then
          let r := r.skip
          if endsBlockEntry r.next then some (Node.blank, r) else node? fuel true true r
        else some (Node.blank, r)
      let (entries, r) ← blockEntries? fuel r
      some ((k, v) :: entries, r)
    | _ => none

def flowItems? : Nat → Bool → Reader → Option (List Node × Reader)
  | 0, _, _ => none
  | fuel + 1, first, r =>
    if r.next = .flowSequenceEnd then some ([], r.skip)
    else do
      let r ← if first then some r else if r.next = .flowEntry then some r.skip else none
      match r.next with
      | .flowSequenceEnd => some ([], r.skip)
      | .key =>
        let (pair, r) ← flowPair? fuel r.skip
        let (items, r) ← flowItems? fuel false r
        some (.map none none [pair] :: items, r)
      | _ =>
        let (n, r) ← node? fuel false false r
        let (items, r) ← flowItems? fuel false r
        some (n :: items, r)

/-- A single pair within brackets, after its key marker. A blank key takes the
token after it away. -/
def flowPair? : Nat → Reader → Option ((Node × Node) × Reader)
  | 0, _ => none
  | fuel + 1, r => do
    let (k, r) ←
      if r.next = .value || endsFlowPair r.next then some (Node.blank, r.skip)
      else node? fuel false false r
    let (v, r) ←
      if r.next = .value then
        let r := r.skip
        if endsFlowPair r.next then some (Node.blank, r) else node? fuel false false r
      else some (Node.blank, r)
    some ((k, v), r)

def flowEntries? : Nat → Bool → Reader → Option (List (Node × Node) × Reader)
  | 0, _, _ => none
  | fuel + 1, first, r =>
    if r.next = .flowMappingEnd then some ([], r.skip)
    else do
      let r ← if first then some r else if r.next = .flowEntry then some r.skip else none
      match r.next with
      | .flowMappingEnd => some ([], r.skip)
      | .key =>
        let r := r.skip
        let (k, r) ←
          if r.next = .value || endsFlowEntry r.next then some (Node.blank, r)
          else node? fuel false false r
        let (v, r) ←
          if r.next = .value then
            let r := r.skip
            if endsFlowEntry r.next then some (Node.blank, r) else node? fuel false false r
          else some (Node.blank, r)
        let (entries, r) ← flowEntries? fuel false r
        some ((k, v) :: entries, r)
      | _ =>
        let (k, r) ← node? fuel false false r
        let (entries, r) ← flowEntries? fuel false r
        some ((k, Node.blank) :: entries, r)
end

/-- The directives before a document. A version may be given once and must be
1.1 or 1.2; a handle may be given once. -/
def directives? : Bool → List (String × String) → List Token →
    Option (List (String × String) × List Token)
  | versioned, handles, .versionDirective major minor :: rest =>
    if versioned || major ≠ 1 || (minor ≠ 1 && minor ≠ 2) then none
    else directives? true handles rest
  | versioned, handles, .tagDirective handle tagPrefix :: rest =>
    if (handles.lookup handle).isSome then none
    else directives? versioned ((handle, tagPrefix) :: handles) rest
  | _, handles, rest => some (handles, rest)

def standardHandles : List (String × String) :=
  [("!", "!"), ("!!", "tag:yaml.org,2002:")]

def beginsContent : Token → Bool
  | .versionDirective _ _ | .tagDirective _ _ | .documentStart | .documentEnd | .streamEnd => false
  | _ => true

end Reader

/-- The root of the only document of a text; the inner `none` is a text
without any document. A text with two documents is refused. -/
def document? (text : String) : Option (Option Node) := do
  let tokens ← tokens? text
  let fuel := 2 * tokens.length + 2
  match tokens with
  | [.streamEnd] => some none
  | _ =>
    let (handles, rest) ← Reader.directives? false [] tokens
    let marked := rest.head? = some .documentStart
    if rest.length < tokens.length && !marked then none
    else
      let r : Reader :=
        { tokens := if marked then rest.tail else rest, handles := handles ++ Reader.standardHandles }
      let (root, r) ←
        if marked && !Reader.beginsContent r.next then some (Node.blank, r)
        else Reader.node? fuel true false r
      if r.tokens.dropWhile (· = .documentEnd) = [.streamEnd] then some (some root) else none

end RecipeNet.Yaml
