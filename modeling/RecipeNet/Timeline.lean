import RecipeNet.Net.Event
import RecipeNet.Text.Digits

/-!
Timelines: the reports of a net in order of arrival, with the milliseconds
since the start if a clock was read, and the trace that is printed of them.
-/

namespace RecipeNet

inductive TraceKind where
  | fired
  | awaits (activity : String)
  | completed
deriving DecidableEq, Repr

/-- An entry of a timeline. Its subject is the address of a step, or the place
of a completion. -/
structure TraceEntry where
  subject : String
  kind : TraceKind
  token : Option TokenId
  time : Option Nat
deriving DecidableEq, Repr

structure Timeline where
  entries : List TraceEntry := []
deriving DecidableEq, Repr

def TraceEntry.ofEvent (time : Option Nat) : Event → TraceEntry
  | .fired step => ⟨step.text, .fired, none, time⟩
  | .started step activity token => ⟨step.text, .awaits activity, some token.id, time⟩
  | .completed place token => ⟨place, .completed, some token.id, time⟩

namespace Timeline

def record (t : Timeline) (time : Option Nat) (e : Event) : Timeline :=
  ⟨t.entries ++ [.ofEvent time e]⟩

def recordAll (t : Timeline) (time : Option Nat) (events : List Event) : Timeline :=
  ⟨t.entries ++ events.map (.ofEvent time)⟩

def firings (t : Timeline) : List TraceEntry :=
  t.entries.filter (·.kind = .fired)

def triggered (t : Timeline) : Nat :=
  t.firings.length

def countOne (name : String) : List (String × Nat) → List (String × Nat)
  | [] => [(name, 1)]
  | (k, n) :: rest =>
    if name < k then (name, 1) :: (k, n) :: rest
    else if name = k then (k, n + 1) :: rest
    else (k, n) :: countOne name rest

def counts (t : Timeline) : List (String × Nat) :=
  t.firings.foldl (fun counts e => countOne e.subject counts) []

def subjectWidth : Nat := 28

/-- Characters on exactly `width` columns: filled up with blanks, or cut with
three dots at the end. -/
def fit (width : Nat) (cs : List Char) : List Char :=
  if cs.length ≤ width then cs ++ List.replicate (width - cs.length) ' '
  else cs.take (width - 3) ++ ['.', '.', '.']

def timeChars : Option Nat → List Char
  | some ms => Text.decimal ms
  | none => ['*']

def detail : TraceKind → String
  | .fired => "fired"
  | .awaits activity => "awaits '" ++ activity ++ "'"
  | .completed => "completed"

def shortId (id : TokenId) : String :=
  " [" ++ String.ofList (id.chars.take 8) ++ "]"

def line (e : TraceEntry) : String :=
  let time := timeChars e.time
  String.ofList (List.replicate (6 - time.length) ' ' ++ time) ++ " ms  " ++
    String.ofList (fit subjectWidth e.subject.toList) ++ " " ++ detail e.kind ++
    (e.token.map shortId).getD "" ++ "\n"

def report (t : Timeline) (elapsed : Option Nat) : String :=
  "\nExecution Trace:\n\n" ++ String.join (t.entries.map line) ++
    "\nTotal: " ++ toString t.entries.length ++ " events, " ++ toString t.triggered ++
    " firings, " ++ String.ofList (timeChars elapsed) ++ " ms\n"

end Timeline
end RecipeNet
