import RecipeNet.Proofs.Net.Fuel
import RecipeNet.Proofs.Reachable

/-!
What is asked of a net over time: calls, and pauses in between. The answers do not depend on
the fuel, and a net with other identities gives the same answers with these.
-/

namespace RecipeNet

open Engine (Call)

variable {ρ : Equiv.Perm TokenId}

def Engine.Call.rename (ρ : Equiv.Perm TokenId) : Call → Call
  | .start t => .start (t.rename ρ)
  | .complete path token output => .complete path (ρ token) output
  | .resume => .resume

/-- What can be seen of the answer to a call: the net, the events and the result. -/
structure Outcome where
  engine : Engine
  events : List Event
  result : Except Fault Unit

def Run.outcome (run : Run) : Outcome := ⟨run.engine, run.events, run.result⟩

def Outcome.rename (ρ : Equiv.Perm TokenId) (x : Outcome) : Outcome :=
  ⟨x.engine.rename ρ, x.events.map (Event.rename ρ), renamed ρ id x.result⟩

inductive Ask where
  | call (asked : Engine.Call)
  | pause (now : Timestamp)

def Ask.rename (ρ : Equiv.Perm TokenId) : Ask → Ask
  | .call asked => .call (asked.rename ρ)
  | .pause now => .pause now

/-- What is asked of a net that has been started, by someone who addresses its steps. -/
def Ask.Later : Ask → Prop
  | .call (.start _) => False
  | .call (.complete path _ _) => path ≠ []
  | .call .resume => True
  | .pause _ => True

/-- The same asked of the net around a step that runs the net. -/
def Ask.within (step : String) : Ask → Ask
  | .call (.complete path token output) => .call (.complete (step :: path) token output)
  | other => other

namespace Engine

def paused (e : Engine) (now : Timestamp) (s : Supply) : Run :=
  ⟨(e.pause now).1, s, [], discard (e.pause now).2⟩

def met (fuel : Nat) (e : Engine) (s : Supply) : Ask → Option Run
  | .call call => e.answer fuel s call
  | .pause now => some (e.paused now s)

/-- What comes of several things that are asked one after the other, and the supply then. -/
def asked (fuel : Nat) (e : Engine) (s : Supply) : List Ask → Option (List Outcome × Supply)
  | [] => some ([], s)
  | ask :: rest => (e.met fuel s ask).bind fun run =>
    (asked fuel run.engine run.supply rest).map fun x => (run.outcome :: x.1, x.2)

variable {e : Engine} {s : Supply} {fuel more : Nat}

theorem asked_cons {ask : Ask} {rest : List Ask} {outcomes : List Outcome} {last : Supply} :
    e.asked fuel s (ask :: rest) = some (outcomes, last) ↔ ∃ run more, e.met fuel s ask = some run ∧
      run.engine.asked fuel run.supply rest = some (more, last) ∧ outcomes = run.outcome :: more := by
  constructor
  · intro h
    obtain ⟨run, hrun, hrest⟩ := Option.bind_eq_some_iff.1 h
    obtain ⟨⟨more, last⟩, hmore, heq⟩ := Option.map_eq_some_iff.1 hrest
    cases heq
    exact ⟨run, more, hrun, hmore, rfl⟩
  · rintro ⟨run, more, hrun, hmore, rfl⟩
    exact Option.bind_eq_some_iff.2 ⟨run, hrun, Option.map_eq_some_iff.2 ⟨_, hmore, rfl⟩⟩

theorem answer_mono (hle : fuel ≤ more) {call : Call} {run : Run}
    (h : e.answer fuel s call = some run) : e.answer more s call = some run := by
  cases call with
  | start t =>
    unfold answer startWith at h ⊢
    dsimp only at h ⊢
    generalize e.enter t = entered at h ⊢
    cases entered with
    | error f => exact h
    | ok entered =>
      obtain ⟨later, hlater, rfl⟩ := Option.map_eq_some_iff.1 h
      exact Option.map_eq_some_iff.2 ⟨later, drive_mono hle hlater, rfl⟩
  | complete path token output => exact complete_mono hle h
  | resume => exact resume_mono hle h

theorem met_mono (hle : fuel ≤ more) {ask : Ask} {run : Run} (h : e.met fuel s ask = some run) :
    e.met more s ask = some run := by
  cases ask with
  | call call => exact answer_mono hle h
  | pause now => exact h

theorem asked_mono (hle : fuel ≤ more) {asks : List Ask} {x : List Outcome × Supply}
    (h : e.asked fuel s asks = some x) : e.asked more s asks = some x := by
  induction asks generalizing e s x with
  | nil => exact h
  | cons ask rest ih =>
    obtain ⟨run, more, hrun, hmore, hx⟩ := asked_cons.1 h
    exact asked_cons.2 ⟨run, more, met_mono hle hrun, ih hmore, hx⟩

end Engine

mutual
theorem Engine.rename_pause (now : Timestamp) : ∀ e : Engine,
    ((e.rename ρ).pause now).1 = (e.pause now).1.rename ρ ∧
      discard ((e.rename ρ).pause now).2 = renamed ρ id (discard (e.pause now).2)
  | ⟨plan, fingerprint, status, holdings, slots, completion, haltedBy⟩ => by
    have hslots := Slot.rename_captureAll now
      (TokenTable.registerAll [] (holdings.flatMap (·.tokens)))
      (TokenTable.registerAll [] ((holdings.map (Holding.rename ρ)).flatMap (·.tokens))) slots
    unfold Engine.rename Engine.pause
    cases status.paused? with
    | none => exact ⟨rfl, rfl⟩
    | some next =>
      dsimp only
      generalize Slot.captureAll now _ slots = captured at hslots ⊢
      generalize Slot.captureAll now _ (Slot.allRename ρ slots) = other at hslots ⊢
      obtain ⟨slots', result⟩ := captured
      obtain ⟨others, result'⟩ := other
      obtain ⟨rfl, hresult⟩ := hslots
      refine ⟨rfl, ?_⟩
      cases result <;> cases result' <;> exact hresult

theorem Slot.rename_captureAll (now : Timestamp) (table other : List TokenRecord) :
    ∀ slots : List Slot,
      (Slot.captureAll now other (Slot.allRename ρ slots)).1 =
        Slot.allRename ρ (Slot.captureAll now table slots).1 ∧
      discard (Slot.captureAll now other (Slot.allRename ρ slots)).2 =
        renamed ρ id (discard (Slot.captureAll now table slots).2)
  | [] => ⟨rfl, rfl⟩
  | ⟨step, inputs, outputs, phase, tr⟩ :: rest => by
    have htr := Transition.rename_capture now table other tr
    have hrest := fun table other => Slot.rename_captureAll now table other rest
    unfold Slot.allRename Slot.captureAll
    generalize tr.capture now table = captured at htr ⊢
    generalize (tr.rename ρ).capture now other = captured' at htr ⊢
    obtain ⟨tr', f | ⟨table', state⟩⟩ := captured <;>
      obtain ⟨tr'', f' | ⟨other', state'⟩⟩ := captured' <;> obtain ⟨rfl, hresult⟩ := htr
    · exact ⟨rfl, hresult⟩
    · cases hresult
    · cases hresult
    · have hlater := hrest table' other'
      dsimp only
      generalize Slot.captureAll now table' rest = later at hlater ⊢
      generalize Slot.captureAll now other' (Slot.allRename ρ rest) = later' at hlater ⊢
      obtain ⟨slots, result⟩ := later
      obtain ⟨slots', result'⟩ := later'
      obtain ⟨rfl, hlast⟩ := hlater
      refine ⟨rfl, ?_⟩
      cases result <;> cases result' <;> exact hlast

theorem Transition.rename_capture (now : Timestamp) (table other : List TokenRecord) :
    ∀ tr : Transition,
      ((tr.rename ρ).capture now other).1 = (tr.capture now table).1.rename ρ ∧
      discard ((tr.rename ρ).capture now other).2 = renamed ρ id (discard (tr.capture now table).2)
  | .busy nest t child => by
    have hchild := Engine.rename_pause now child
    unfold Transition.rename Transition.capture
    generalize child.pause now = paused at hchild ⊢
    generalize (child.rename ρ).pause now = paused' at hchild ⊢
    obtain ⟨child', f | snapshot⟩ := paused <;> obtain ⟨child'', f' | snapshot'⟩ := paused' <;>
      obtain ⟨rfl, hresult⟩ := hchild
    · exact ⟨rfl, hresult⟩
    · cases hresult
    · cases hresult
    · exact ⟨rfl, rfl⟩
  | .pass output => ⟨rfl, rfl⟩
  | .split => ⟨rfl, rfl⟩
  | .join inputs pending => ⟨rfl, rfl⟩
  | .task activity held => ⟨rfl, rfl⟩
  | .routed rule seen => ⟨rfl, rfl⟩
  | .idle nest => ⟨rfl, rfl⟩
end

namespace Engine

theorem mirrors_answer (fuel : Nat) (e : Engine) (s : Supply) (call : Call) :
    Run.Mirrors ρ s (e.answer fuel s call)
      fun s' => (e.rename ρ).answer fuel s' (call.rename ρ) := by
  cases call with
  | start t =>
    have henter := rename_enter (ρ := ρ) e t
    simp only [answer, Call.rename, startWith, henter]
    cases e.enter t with
    | error f => exact .pure rfl fun s' => rfl
    | ok entered =>
      obtain ⟨e', notices, events⟩ := entered
      exact (drive_mirrored fuel e' notices s).after events
  | complete path token output => exact mirrors_complete fuel path e token output s
  | resume => exact mirrors_resume fuel e s

theorem mirrors_met (fuel : Nat) (e : Engine) (s : Supply) (ask : Ask) :
    Run.Mirrors ρ s (e.met fuel s ask) fun s' => (e.rename ρ).met fuel s' (ask.rename ρ) := by
  cases ask with
  | call call => exact mirrors_answer fuel e s call
  | pause now =>
    obtain ⟨hengine, hresult⟩ := e.rename_pause now (ρ := ρ)
    refine .pure rfl fun s' => ?_
    show some (Run.mk _ s' [] _) = some (Run.mk _ s' _ _)
    rw [hengine, hresult]
    rfl

abbrev AnswersMirror (ρ : Equiv.Perm TokenId) (s : Supply) (answer : Option (List Outcome × Supply))
    (other : Supply → Option (List Outcome × Supply)) : Prop :=
  Mirrors ρ Prod.snd (fun s' x => (x.1.map (Outcome.rename ρ), s')) s answer other

/-- Whatever is asked, one after the other. -/
theorem mirrors_asked (fuel : Nat) (asks : List Ask) (e : Engine) (s : Supply) :
    AnswersMirror ρ s (e.asked fuel s asks)
      fun s' => (e.rename ρ).asked fuel s' (asks.map (Ask.rename ρ)) := by
  induction asks generalizing e s with
  | nil => exact .pure rfl fun s' => rfl
  | cons ask rest ih =>
    apply (mirrors_met fuel e s ask).bind
    intro run _
    show AnswersMirror ρ run.supply _ fun s' =>
      (asked fuel (run.engine.rename ρ) s' (rest.map (Ask.rename ρ))).map
        fun x => (run.outcome.rename ρ :: x.1, x.2)
    apply (ih run.engine run.supply).map
    · exact fun _ => rfl
    · exact fun _ _ => rfl

end Engine
end RecipeNet
