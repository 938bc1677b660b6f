import RecipeNet.Proofs.Net.Fuel
import RecipeNet.Proofs.Plan.Saving
import RecipeNet.Proofs.Turns

/-!
How runs end. A session is driven until it stops, pauses or fails, and the ending is what is left
of it then. A script that is performed comes to the ending of its run.
-/

namespace RecipeNet
namespace CommandLine

inductive Ending where
  | stopped (s : Session)
  /-- The net has paused, and its snapshot is to be kept. -/
  | paused (s : Session) (snapshot : Snapshot)
  | failed (s : Session) (f : Fault)
  /-- There has been no net to start. -/
  | refused (f : Fault)

namespace Ending

def session? : Ending → Option Session
  | .stopped s | .paused s _ | .failed s _ => some s
  | .refused _ => none

def verdict? (ending : Ending) : Option (Status × Option String) :=
  ending.session?.map fun s => (s.engine.status, s.engine.completion.map (·.1))

def supply? (ending : Ending) : Option Supply :=
  ending.session?.map (·.supply)

def pause? : Ending → Option (Session × Snapshot)
  | .paused s snapshot => some (s, snapshot)
  | .stopped _ | .failed _ _ | .refused _ => none

theorem eq_paused {ending : Ending} {x : Session × Snapshot} (h : ending.pause? = some x) :
    ending = .paused x.1 x.2 := by
  cases ending <;> cases h
  rfl

def script : Ending → Script
  | .stopped s => .close s
  | .paused s snapshot => .keep s snapshot
  | .failed _ f | .refused f => .fail f.message

end Ending

namespace Session

def onward (s : Session) (rest : List Activity) (run : Run) : Session :=
  { s with engine := run.engine, supply := run.supply, activities := rest, fresh := run.events }

def call (fuel : Nat) (s : Session) (activity : Activity) : Option Run :=
  s.engine.complete fuel activity.step.path activity.token (s.options.resultFor activity.name)
    s.supply

def proceed (again : Session → Option Ending) (fuel : Nat) (s : Session) : Option Ending :=
  if s.engine.status ≠ .running then some (.stopped s)
  else
    match s.activities with
    | [] => some (.stopped s)
    | activity :: rest =>
      (s.call fuel activity).bind fun run =>
        match run.result with
        | .error f => some (.failed (s.onward rest run) f)
        | .ok () => again (s.onward rest run)

def drive (now : Timestamp) : Nat → Session → Option Ending
  | 0, _ => none
  | fuel + 1, s =>
    let s := s.settle none
    if s.isDue then
      match s.engine.pause now with
      | (engine, .ok snapshot) => some (.paused { s with engine } snapshot)
      | (engine, .error f) => some (.failed { s with engine } f)
    else s.proceed (drive now fuel) fuel

end Session

namespace Options

def start (options : Options) (now : Timestamp) (fuel : Nat) (engine : Engine) (supply : Supply) :
    Option Ending :=
  (engine.start fuel supply).bind fun run =>
    match run.result with
    | .error f => some (.failed (.opened options run) f)
    | .ok () => (Session.opened options run).drive now fuel

def launch (options : Options) (now : Timestamp) (fuel : Nat) (plan : Plan)
    (file : Except String String) (supply : Supply) : Option Ending :=
  match Engine.build .standard plan with
  | .error f => some (.refused f)
  | .ok engine =>
    if options.resume then
      match Snapshot.ofFile file with
      | .error f => some (.refused f)
      | .ok snapshot =>
        match engine.restore snapshot with
        | (_, .error f) => some (.refused f)
        | (engine, .ok ()) => options.start now fuel engine supply
    else options.start now fuel engine supply

end Options

variable {now : Timestamp} {fuel : Nat} {options : Options} {plan : Plan} {supply : Supply}

/-! ### One turn -/

namespace Session

variable {s : Session} {again : Session → Option Ending} {ending : Ending} {run : Run}
  {activity : Activity} {rest : List Activity}

def Idle (s : Session) : Prop :=
  s.engine.status ≠ .running ∨ s.activities = []

theorem proceed_idle (h : s.Idle) : s.proceed again fuel = some (.stopped s) := by
  rw [proceed]
  by_cases hover : s.engine.status ≠ .running
  · rw [if_pos hover]
  · rw [if_neg hover, h.resolve_left hover]

structure Finishes (fuel : Nat) (s : Session) (rest : List Activity) (run : Run) : Prop where
  running : s.engine.status = .running
  turn : ∃ activity, s.activities = activity :: rest ∧ s.call fuel activity = some run

theorem proceed_finishes (h : s.Finishes fuel rest run) : s.proceed again fuel =
    match run.result with
    | .error f => some (.failed (s.onward rest run) f)
    | .ok () => again (s.onward rest run) := by
  obtain ⟨running, activity, hturn, hcall⟩ := h
  rw [proceed, if_neg (not_not.2 running), hturn]
  dsimp only
  rw [hcall, Option.bind_some]

/-- What comes of a session is that nothing is finished, that a call has failed, or what comes of
the session that goes on. -/
theorem proceed_cases (h : s.proceed again fuel = some ending) :
    (s.Idle ∧ ending = .stopped s) ∨ ∃ rest run, s.Finishes fuel rest run ∧
      ((∃ f, run.result = .error f ∧ ending = .failed (s.onward rest run) f) ∨
        (run.result = .ok () ∧ again (s.onward rest run) = some ending)) := by
  by_cases hidle : s.Idle
  · rw [proceed_idle hidle] at h
    exact .inl ⟨hidle, (Option.some.inj h).symm⟩
  obtain ⟨hrunning, hsome⟩ := not_or.1 hidle
  obtain ⟨activity, rest, hturn⟩ := List.exists_cons_of_ne_nil hsome
  cases hcall : s.call fuel activity with
  | none =>
    rw [proceed, if_neg hrunning, hturn] at h
    dsimp only at h
    rw [hcall] at h
    cases h
  | some run =>
    have hfinishes : s.Finishes fuel rest run := ⟨not_not.1 hrunning, activity, hturn, hcall⟩
    rw [proceed_finishes hfinishes] at h
    refine .inr ⟨rest, run, hfinishes, ?_⟩
    cases hresult : run.result with
    | error f =>
      rw [hresult] at h
      exact .inl ⟨f, rfl, (Option.some.inj h).symm⟩
    | ok =>
      rw [hresult] at h
      exact .inr ⟨rfl, h⟩

theorem isDue_unlimited (h : s.options.pauseAfter = none) : s.isDue = false := by
  rw [isDue, h]
  rfl

theorem drive_unlimited (h : s.options.pauseAfter = none) :
    s.drive now (fuel + 1) = (s.settle none).proceed (drive now fuel) fuel := by
  have hgoes : ¬ (s.settle none).isDue = true :=
    ne_true_of_eq_false (@isDue_unlimited (s.settle none) h)
  rw [drive, if_neg hgoes]

/-- The ending does not depend on the fuel. -/
theorem drive_mono {more : Nat} (hle : fuel ≤ more) (h : s.drive now fuel = some ending) :
    s.drive now more = some ending := by
  induction fuel generalizing s more with
  | zero => cases h
  | succ fuel ih =>
    obtain ⟨more, rfl⟩ : ∃ m, more = m + 1 := ⟨more - 1, by omega⟩
    rw [drive] at h ⊢
    generalize s.settle none = settled at h ⊢
    by_cases hdue : settled.isDue = true
    · rwa [if_pos hdue] at h ⊢
    rw [if_neg hdue] at h ⊢
    rcases proceed_cases h with ⟨hidle, rfl⟩ | ⟨rest, run, ⟨hrunning, activity, hturn, hcall⟩, hend⟩
    · exact proceed_idle hidle
    · have hmore : settled.Finishes more rest run :=
        ⟨hrunning, activity, hturn, Engine.complete_mono (Nat.le_of_succ_le_succ hle) hcall⟩
      rw [proceed_finishes hmore]
      rcases hend with ⟨f, hresult, rfl⟩ | ⟨hresult, hagain⟩
      · rw [hresult]
      · rw [hresult]
        exact ih (Nat.le_of_succ_le_succ hle) hagain

end Session

/-! ### Scripts -/

/-- A script that is performed comes to an ending when something has been said. -/
def Script.ComesTo (now : Timestamp) (p : Performance) (script : Script) (ending : Option Ending) :
    Prop :=
  ∃ said, script.perform now p =
    (ending.elim .exhausted Ending.script).perform now { p with said := p.said ++ said }

theorem Script.ComesTo.intro (p : Performance) (ending : Option Ending) :
    ComesTo now p (ending.elim .exhausted Ending.script) ending :=
  ⟨"", by rw [String.append_empty]⟩

theorem Script.ComesTo.said {p : Performance} {text : String} {script : Script}
    {ending : Option Ending}
    (h : ComesTo now { p with said := p.said ++ text } script ending) :
    ComesTo now p (.say text fun _ => script) ending := by
  obtain ⟨said, hsaid⟩ := h
  refine ⟨text ++ said, ?_⟩
  rw [perform, hsaid, String.append_assoc]

theorem Script.ComesTo.clock {p : Performance} {next : Option Nat → Timestamp → Script}
    {ending : Option Ending} (h : ComesTo now p (next none now) ending) :
    ComesTo now p (.clock next) ending :=
  h

/-- A session is driven to its end by its script. -/
theorem Session.comesTo_drive (p : Performance) (s : Session) :
    Script.ComesTo now p (.drive fuel s) (s.drive now fuel) := by
  induction fuel generalizing s p with
  | zero => exact .intro p none
  | succ fuel ih =>
    rw [Script.drive, drive]
    refine .said (.clock ?_)
    generalize s.settle none = settled
    rw [next]
    by_cases hdue : settled.isDue = true
    · rw [if_pos hdue, if_pos hdue]
      obtain ⟨engine, result⟩ := settled.engine.pause now
      cases result with
      | ok snapshot => exact .intro _ (some (.paused { settled with engine } snapshot))
      | error f => exact .intro _ (some (.failed { settled with engine } f))
    rw [if_neg hdue, if_neg hdue, proceed]
    by_cases hover : settled.engine.status ≠ .running
    · rw [if_pos hover, if_pos hover]
      exact .intro _ (some (.stopped settled))
    rw [if_neg hover, if_neg hover]
    cases hturn : settled.activities with
    | nil => exact .intro _ (some (.stopped settled))
    | cons activity rest =>
      dsimp only
      rw [finish, ← call]
      cases settled.call fuel activity with
      | none => exact .intro _ none
      | some run =>
        rw [Option.map_some, Option.bind_some]
        cases hresult : run.result with
        | error f => exact .intro _ (some (.failed (settled.onward rest run) f))
        | ok => exact ih _ _

theorem Options.comesTo_start (p : Performance) (engine : Engine) :
    Script.ComesTo now p (.start fuel options engine supply)
      (options.start now fuel engine supply) := by
  rw [Script.start, start]
  cases engine.start fuel supply with
  | none => exact .intro p none
  | some run =>
    rw [Option.bind_some]
    dsimp only
    cases run.result with
    | error f => exact .intro p (some (.failed (.opened options run) f))
    | ok => exact Session.comesTo_drive p (.opened options run)

theorem Script.ComesTo.read {p : Performance} {path : String} {next : Except String String → Script}
    {ending : Option Ending} (h : ComesTo now p (next (p.folder.fetch path)) ending) :
    ComesTo now p (.read path next) ending := by
  obtain ⟨said, hsaid⟩ := h
  refine ⟨said, ?_⟩
  rw [← hsaid, perform, Folder.fetch]
  cases p.folder.read? path <;> rfl

theorem Options.comesTo_launch (p : Performance) :
    Script.ComesTo now p (.launch fuel options plan supply)
      (options.launch now fuel plan (p.folder.fetch options.snapshotPath) supply) := by
  rw [Script.launch, launch]
  cases Engine.build .standard plan with
  | error f => exact .intro p (some (.refused f))
  | ok engine =>
    dsimp only
    split
    · refine .read ?_
      cases Snapshot.ofFile (p.folder.fetch options.snapshotPath) with
      | error f => exact .intro p (some (.refused f))
      | ok snapshot =>
        dsimp only
        obtain ⟨restored, result⟩ := engine.restore snapshot
        cases result with
        | error f => exact .intro p (some (.refused f))
        | ok => exact Options.comesTo_start p restored
    · exact Options.comesTo_start p engine

/-- A run comes to the ending that its plan is launched to, if the plan can be loaded. -/
theorem Options.comesTo_run (p : Performance)
    (loads : Plan.load p.folder options.planPath = .ok plan) :
    Script.ComesTo now p (.run fuel options supply)
      (options.launch now fuel plan (p.folder.fetch options.snapshotPath) supply) := by
  rw [Script.run]
  refine .said (.read ?_)
  change Plan.ofFile _ = _ at loads
  dsimp only
  rw [loads]
  exact Options.comesTo_launch _

end CommandLine
end RecipeNet
