import RecipeNet.Net.Engine

/-!
Cascades: a token that comes into a place is offered to every step that reads
the place, and what a firing puts into places is offered on in turn, first come
first served, until nothing is left to offer or the run has ended. The answer
`none` means that the given fuel did not suffice.
-/

namespace RecipeNet

/-- What a step's reaction leaves behind. -/
structure Reacted where
  reaction : Reaction
  transition : Transition
  supply : Supply
  result : Except Fault Unit

/-- What an operation on a net leaves behind. -/
structure Run where
  engine : Engine
  supply : Supply
  events : List Event
  result : Except Fault Unit

def Run.after (r : Run) (events : List Event) : Run :=
  { r with events := events ++ r.events }

/-- How a net works off its notices. -/
abbrev Drive := Engine → List Engine.Notice → Supply → Option Run

def Reaction.forward (r : Reaction) (input output : Nat) (t : Token) : Reaction × Except Fault Bool :=
  r.fire [(input, t)] [(output, t)]

def discard {α : Type} : Except Fault α → Except Fault Unit
  | .ok _ => .ok ()
  | .error f => .error f

def announce (r : Reaction) (activity : String) (t : Token) : Reaction :=
  r.raise (.started (.ofStep r.step) activity t)

namespace Nest

def transition (nest : Nest) : Option (Token × Engine) → Transition
  | some (t, child) => .busy nest t child
  | none => .idle nest

/-- Passes on what the nested net has reported. Its completion releases the
token to the output of the terminal place. The answer says whether it has. -/
def absorb (nest : Nest) (running : Option (Token × Engine)) (done : Bool) (r : Reaction) :
    List Event → Reaction × Option (Token × Engine) × Except Fault Bool
  | [] => (r, running, .ok done)
  | .completed place _ :: rest =>
    match nest.outputs.output? place with
    | none => (r, running, .error (.unmappedTerminal r.step place))
    | some output =>
      match running with
      | none => absorb nest none done r rest
      | some (t, _) =>
        match r.produce output t with
        | .error f => (r, none, .error f)
        | .ok r => absorb nest none true r rest
  | event :: rest =>
    let r := match event.within r.step with
      | some e => r.raise e
      | none => r
    absorb nest running done r rest

/-- What follows an operation on the nested net for a token: its reports are
passed on, and if the token is released the next one may begin. -/
def settle (nest : Nest) (next : Reaction → Token → Supply → Option Reacted) (t : Token) (run : Run)
    (r : Reaction) : Option Reacted :=
  match nest.absorb (some (t, run.engine)) false r run.events with
  | (r, running, .error f) => some ⟨r, nest.transition running, run.supply, .error f⟩
  | (r, running, .ok done) =>
    match run.result with
    | .error f => some ⟨r, nest.transition running, run.supply, .error f⟩
    | .ok () =>
      match r.waiting? 0 with
      | some waiting =>
        if done then next r waiting run.supply
        else some ⟨r, nest.transition running, run.supply, .ok ()⟩
      | none => some ⟨r, nest.transition running, run.supply, .ok ()⟩

/-- The token that a nested net starts with: a new one that carries what the
given one does. -/
def startToken (t : Token) (s : Supply) : Token × Supply :=
  let (id, s) := s.next
  (⟨id, t.effectivePayload, none⟩, s)

/-- Runs the nested plan for a token, and for every token that waits when it
has completed at once. -/
def launch (nest : Nest) (drive : Drive) : Nat → Reaction → Token → Supply → Option Reacted
  | 0, _, _, _ => none
  | fuel + 1, r, t, s =>
    match r.fire [(0, t)] [] with
    | (r, .error f) => some ⟨r, .idle nest, s, .error f⟩
    | (r, .ok false) => some ⟨r, .idle nest, s, .ok ()⟩
    | (r, .ok true) =>
      match Engine.build nest.fitter nest.plan with
      | .error f => some ⟨r, .idle nest, s, .error f⟩
      | .ok child =>
        let (start, s) := startToken t s
        match child.enter start with
        | .error f => some ⟨r, .busy nest t child, s, .error f⟩
        | .ok (child, notices, events) =>
          match drive child notices s with
          | none => none
          | some run => nest.settle (launch nest drive fuel) t (run.after events) r

end Nest

namespace Transition

def arrive (drive : Drive) (fuel : Nat) (tr : Transition) (r : Reaction) (input : Nat) (t : Token)
    (s : Supply) : Option Reacted :=
  match tr with
  | .pass output =>
    if r.holds input t then
      let (r, result) := r.forward input output t
      some ⟨r, tr, s, discard result⟩
    else some ⟨r, tr, s, .ok ()⟩
  | .split =>
    if r.holds input t then
      let (ids, s) := s.take r.outputs.length
      let made := ids.zipIdx.map fun (id, output) => (output, (⟨id, none, some t⟩ : Token))
      let (r, result) := r.fire [(input, t)] made
      some ⟨r, tr, s, discard result⟩
    else some ⟨r, tr, s, .ok ()⟩
  | .join inputs pending =>
    let (r, pending, result) := Join.arrive pending r input t
    some ⟨r, .join inputs pending, s, result⟩
  | .task activity held =>
    if r.holds input t then
      match r.fire [(input, t)] [] with
      | (r, .ok true) => some ⟨announce r activity t, .task activity (held ++ [t]), s, .ok ()⟩
      | (r, result) => some ⟨r, tr, s, discard result⟩
    else some ⟨r, tr, s, .ok ()⟩
  | .routed rule seen =>
    if r.holds input t then
      let tr := .routed rule (seen ++ [t])
      match rule seen t with
      | .error reason => some ⟨r, tr, s, .error (.transitionFailed r.step (.refused reason))⟩
      | .ok output =>
        if output < r.outputs.length then
          let (r, result) := r.forward input output t
          some ⟨r, tr, s, discard result⟩
        else
          some ⟨r, tr, s,
            .error (.transitionFailed r.step (.routedOutside output r.outputs.length))⟩
    else some ⟨r, tr, s, .ok ()⟩
  | .idle nest =>
    if r.holds input t then nest.launch drive fuel r t s else some ⟨r, tr, s, .ok ()⟩
  | .busy _ _ _ => some ⟨r, tr, s, .ok ()⟩

end Transition

namespace Engine

def reaction (e : Engine) (slot : Slot) : Reaction :=
  { step := slot.step, inputs := slot.inputs, outputs := slot.outputs, holdings := e.holdings }

def withReacted (e : Engine) (i : Nat) (reacted : Reacted) : Engine :=
  { e with
    holdings := reacted.reaction.holdings
    slots := e.slots.modify i fun slot => { slot with transition := reacted.transition } }

structure Visit where
  engine : Engine
  notices : List Notice
  supply : Supply
  events : List Event
  result : Except Fault Unit

def visited (e : Engine) (i : Nat) (reacted : Reacted) : Visit :=
  let e := e.withReacted i reacted
  match reacted.result with
  | .error f => ⟨e.halt f, [], reacted.supply, reacted.reaction.events, .error f⟩
  | .ok () =>
    let (e, notices, events) := e.acceptAll reacted.reaction.produced
    ⟨e, notices, reacted.supply, reacted.reaction.events ++ events, .ok ()⟩

/-- Goes on after a visit, unless it has failed. -/
def Visit.andThen (v : Visit) (drive : Drive) (queue : List Notice) : Option Run :=
  match v.result with
  | .error f => some ⟨v.engine, v.supply, v.events, .error f⟩
  | .ok () => (drive v.engine (queue ++ v.notices) v.supply).map (·.after v.events)

/-- Works off notices in order while the net runs. A step that is not active
passes its notices over. -/
def drive : Nat → Drive
  | 0, _, _, _ => none
  | _ + 1, e, [], s => some ⟨e, s, [], .ok ()⟩
  | fuel + 1, e, n :: queue, s =>
    if e.status ≠ .running then some ⟨e, s, [], .ok ()⟩
    else
      match e.slots[n.slot]? with
      | none => drive fuel e queue s
      | some slot =>
        if slot.phase ≠ .active then drive fuel e queue s
        else
          match slot.transition.arrive (drive fuel) fuel (e.reaction slot) n.input n.token s with
          | none => none
          | some reacted => (e.visited n.slot reacted).andThen (drive fuel) queue

def startWith (fuel : Nat) (e : Engine) (t : Token) (s : Supply) : Option Run :=
  match e.enter t with
  | .error f => some ⟨e, s, [], .error f⟩
  | .ok (e, notices, events) => (drive fuel e notices s).map (·.after events)

def release (held : List Token) (activity : String) (r : Reaction) (token : TokenId) (output : Nat)
    (s : Supply) : Reacted :=
  match held.findIdx? (·.id == token) with
  | none => ⟨r, .task activity held, s, .error (.notAwaiting r.step token)⟩
  | some i =>
    match held[i]? with
    | none => ⟨r, .task activity held, s, .error (.notAwaiting r.step token)⟩
    | some t =>
      match r.produce output t with
      | .error f => ⟨r, .task activity held, s, .error f⟩
      | .ok r => ⟨r, .task activity (held.eraseIdx i), s, .ok ()⟩

/-- Reports that the activity of a task at an address has finished with a token
and chosen an output. -/
def complete (fuel : Nat) (path : List String) (e : Engine) (token : TokenId) (output : Nat)
    (s : Supply) : Option Run :=
  if e.status ≠ .running then some ⟨e, s, [], .error (.wrongState .complete e.status)⟩
  else
    match path with
    | [] => some ⟨e, s, [], .error (.unknownStep "")⟩
    | head :: rest =>
      match slotIndex? e.slots head with
      | none => some ⟨e, s, [], .error (.unknownStep head)⟩
      | some i =>
        match e.slots[i]? with
        | none => some ⟨e, s, [], .error (.unknownStep head)⟩
        | some slot =>
          let r := e.reaction slot
          match slot.transition, rest with
          | .task activity held, [] =>
            (e.visited i (release held activity r token output s)).andThen (drive fuel) []
          | .busy nest t child, next :: more =>
            match complete fuel (next :: more) child token output s with
            | none => none
            | some run =>
              match nest.settle (nest.launch (drive fuel) fuel) t run r with
              | none => none
              | some reacted => (e.visited i reacted).andThen (drive fuel) []
          | .idle nest, next :: more =>
            let reacted : Reacted :=
              ⟨r, .idle nest, s, .error (.notAwaiting (Address.text ⟨next :: more⟩) token)⟩
            (e.visited i reacted).andThen (drive fuel) []
          | tr, _ =>
            let reacted : Reacted := ⟨r, tr, s, .error (.notAwaiting (Address.text ⟨path⟩) token)⟩
            (e.visited i reacted).andThen (drive fuel) []

/-- What a step does when its net goes on after a pause: tasks report their
tokens again, and nested nets go on by `again`. -/
def goOn (again : Engine → Supply → Option Run) (drive : Drive) (fuel : Nat) (slot : Slot) (r : Reaction)
    (s : Supply) : Option Reacted :=
  match slot.transition with
  | .task activity held =>
    some ⟨held.foldl (announce · activity ·) r, slot.transition, s, .ok ()⟩
  | .busy nest t child =>
    match again child s with
    | none => none
    | some run => nest.settle (nest.launch drive fuel) t run r
  | tr => some ⟨r, tr, s, .ok ()⟩

def resumeSlots (again : Engine → Supply → Option Run) (drive : Drive) (fuel : Nat) (e : Engine)
    (s : Supply) : List Nat → Option Visit
  | [] => some ⟨e, [], s, [], .ok ()⟩
  | i :: rest =>
    if e.status ≠ .running then some ⟨e, [], s, [], .ok ()⟩
    else
      match e.slots[i]? with
      | none => resumeSlots again drive fuel e s rest
      | some slot =>
        match goOn again drive fuel slot (e.reaction slot) s with
        | none => none
        | some reacted =>
          let v := e.visited i reacted
          match v.result with
          | .error f => some { v with result := .error f }
          | .ok () =>
            match resumeSlots again drive fuel v.engine v.supply rest with
            | none => none
            | some w => some { w with notices := v.notices ++ w.notices, events := v.events ++ w.events }

/-- Goes on after a pause: first the steps with what they have taken in, then
every token that was in a place is offered once more. -/
def resume : Nat → Engine → Supply → Option Run
  | 0, _, _ => none
  | fuel + 1, e, s =>
    if e.status ≠ .paused then some ⟨e, s, [], .error (.wrongState .resume e.status)⟩
    else
      let e := { e.activate with status := .running }
      match resumeSlots (resume fuel) (drive fuel) fuel e s (List.range e.slots.length) with
      | none => none
      | some v =>
        match v.result with
        | .error f => some ⟨v.engine, v.supply, v.events, .error f⟩
        | .ok () =>
          let (e', notices, events) := v.engine.acceptAll e.held
          (drive fuel e' (v.notices ++ notices) v.supply).map (·.after (v.events ++ events))

def start (fuel : Nat) (e : Engine) (s : Supply) : Option Run :=
  if e.status = .paused then resume fuel e s
  else
    let (id, s) := s.next
    startWith fuel e ⟨id, none, none⟩ s

end Engine
end RecipeNet
