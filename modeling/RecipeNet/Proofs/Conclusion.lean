import RecipeNet.Proofs.Invisibility
import RecipeNet.Proofs.Sessions

/-!
How a net concludes. Over all that is ever asked of it, a net reports its completion at
most once and reports nothing afterwards; what it says of its completion from then on is
what it has reported.
-/

namespace RecipeNet

namespace Engine

inductive Operation where
  | call (call : Call)
  | pause (now : Timestamp)
  | restore (snapshot : Snapshot)
  | dispose

def Operation.request? : Operation → Option Request
  | .call asked => some asked.request
  | .pause _ => some .pause
  | .restore _ => some .restore
  | .dispose => none

def perform (fuel : Nat) (e : Engine) (s : Supply) : Operation → Option Outcome
  | .call asked => (e.answer fuel s asked).map Run.outcome
  | .pause now => some ⟨(e.pause now).1, [], discard (e.pause now).2⟩
  | .restore snapshot => some ⟨(e.restore snapshot).1, [], (e.restore snapshot).2⟩
  | .dispose => some ⟨e.dispose, [], .ok ()⟩

/-- A net that some operations have led to, with all that it has reported. -/
inductive Watched (fitter : Fitter) (plan : Plan) : List Event → Engine → Prop
  | built {e : Engine} (build : Engine.build fitter plan = .ok e) : Watched fitter plan [] e
  | performed {events : List Event} {e : Engine} {fuel : Nat} {s : Supply} {op : Operation}
      {out : Outcome} (before : Watched fitter plan events e)
      (performs : e.perform fuel s op = some out) :
    Watched fitter plan (events ++ out.events) out.engine

/-- The events end with a completion in a terminal place of the plan, and none of those
before is a completion. -/
def Concluded (plan : Plan) (events : List Event) (place : String) (t : Token) : Prop :=
  ∃ front, ∃ terminal ∈ plan.terminals, terminal.id = place ∧
    events = front ++ [.completed place t] ∧ ∀ event ∈ front, ¬ event.Final

variable {fitter : Fitter} {plan : Plan} {e : Engine} {events : List Event}

theorem Watched.reachable (h : Watched fitter plan events e) :
    Reachable World.careless fitter plan e := by
  induction h with
  | built build => exact .built build
  | @performed _ e fuel s op out _ performs ih =>
    cases op with
    | call call =>
      obtain ⟨run, hrun, rfl⟩ := Option.map_eq_some_iff.1 performs
      exact .called ih (fun _ _ => trivial) hrun trivial
    | pause now =>
      obtain rfl := Option.some.inj performs
      exact .paused now ih
    | restore snapshot =>
      obtain rfl := Option.some.inj performs
      exact .restored ih trivial
    | dispose =>
      obtain rfl := Option.some.inj performs
      exact .disposed ih

theorem Concluded.after {place : String} {t : Token} {more : List Event}
    (h : Concluded plan more place t) (quiet : ∀ event ∈ events, ¬ event.Final) :
    Concluded plan (events ++ more) place t := by
  obtain ⟨front, terminal, hterminal, hid, rfl, hfront⟩ := h
  refine ⟨events ++ front, terminal, hterminal, hid, (List.append_assoc _ _ _).symm, ?_⟩
  exact fun event hevent => (List.mem_append.1 hevent).elim (quiet event) (hfront event)

structure Candid (e : Engine) : Prop where
  completion : e.completion = none ∨ e.status = .completed
  haltedBy : e.haltedBy = none ∨ e.status = .halted

theorem Ongoing.candid (h : e.Ongoing) : e.Candid := ⟨.inl h.completion, .inl h.haltedBy⟩

theorem Candid.ongoing (h : e.Candid) (live : e.status = .running ∨ e.status = .paused) :
    e.Ongoing := by
  refine ⟨h.completion.resolve_right ?_, h.haltedBy.resolve_right ?_⟩
  all_goals
    intro hend
    rcases live with hlive | hlive <;> cases hlive.symm.trans hend

theorem Ongoing.candid_halt (h : e.Ongoing) (running : e.status = .running) (f : Fault) :
    (e.halt f).Candid := by
  by_cases hhalts : f.halts = true
  · have hcompletion : (e.halt f).completion = none := by
      rw [halt, if_pos hhalts]
      exact h.completion
    exact ⟨.inl hcompletion, .inr (status_halt hhalts running).1⟩
  · rw [halt, if_neg hhalts]
    exact h.candid

end Engine

open Engine in
theorem Act.candid {sc sc' : Scene} {events : List Event} (h : Act sc events sc')
    (hsc : sc.engine.Candid) : sc'.engine.Candid := by
  have hongoing := hsc.ongoing h.live
  cases h with
  | woken | fired | seated | refreshed | released | closed | announced | inside =>
    exact ⟨.inl hongoing.completion, .inl hongoing.haltedBy⟩
  | ended => exact ⟨.inr rfl, .inl hongoing.haltedBy⟩
  | botched running | refused running | balked running | sunk running =>
    dsimp only
    refine Ongoing.candid_halt ?_ ?_ _
    · exact ⟨hongoing.completion, hongoing.haltedBy⟩
    · exact running

namespace Engine

variable {fitter : Fitter} {plan : Plan} {e : Engine} {events : List Event} {fuel : Nat}
  {s : Supply} {op : Operation} {out : Outcome}

inductive Verdict (plan : Plan) (out : Outcome) : Prop
  | still (quiet : ∀ event ∈ out.events, ¬ event.Final) (completion : out.engine.completion = none)
      (status : out.engine.status ≠ .completed)
  | concluded {place : String} {t : Token} (events : Concluded plan out.events place t)
      (completion : out.engine.completion = some (place, t)) (haltedBy : out.engine.haltedBy = none)
      (status : out.engine.status = .completed)

/-- A call leaves a net incomplete, or completes it with the last event that it reports. -/
theorem Steady.verdict_answer (hf : fitter.Regular) (h : e.Steady fitter plan)
    (completion : e.completion = none) (status : e.status ≠ .completed) {call : Call} {run : Run}
    (hrun : e.answer fuel s call = some run) : Verdict plan run.outcome := by
  rcases h.answer hf hrun with ⟨f, -, rfl⟩ | ⟨hopens, hproper⟩
  · exact .still (List.forall_mem_nil _) completion status
  obtain ⟨lore, hcourse⟩ := hproper.course
  have hopen : (e.opened call).status ≠ .completed := by
    rcases opened_cases e call with hsame | ⟨t, -, -, hentered⟩
    · rw [hsame]
      exact status
    · rw [hentered]
      exact fun hcompleted => by cases hcompleted
  have hcandid : run.engine.Candid :=
    hcourse.keeps (P := fun sc => sc.engine.Candid) (fun act ha => act.candid ha)
      hopens.ongoing.here.candid
  rcases hcourse.ending hopen with
    ⟨front, place, t, hevents, hfront, hplace, hterminal, hcompleted, hcompletion⟩ | ⟨hquiet, hstill⟩
  · refine .concluded ⟨front, place, ?_, rfl, hevents, hfront⟩ hcompletion
      (hcandid.haltedBy.resolve_right fun hhalted => ?_) hcompleted
    · rw [Plan.terminals, ← hopens.runs, ← hopens.fits.here.places]
      exact List.mem_filter.2 ⟨hplace, hterminal⟩
    · cases hcompleted.symm.trans hhalted
  · exact .still hquiet (hcandid.completion.resolve_right hstill) hstill

theorem Steady.verdict (hf : fitter.Regular) (h : e.Steady fitter plan)
    (completion : e.completion = none) (status : e.status ≠ .completed)
    (performs : e.perform fuel s op = some out) : Verdict plan out := by
  cases op with
  | call call =>
    obtain ⟨run, hrun, rfl⟩ := Option.map_eq_some_iff.1 performs
    exact h.verdict_answer hf completion status hrun
  | pause now =>
    obtain rfl := Option.some.inj performs
    refine .still (List.forall_mem_nil _) ((completion_pause e now).trans completion) ?_
    rcases status_pause e now with hsame | ⟨-, hpaused⟩ | ⟨-, hhalted⟩
    · exact hsame.symm ▸ status
    · exact fun hcompleted => by cases hpaused.symm.trans hcompleted
    · exact fun hcompleted => by cases hhalted.symm.trans hcompleted
  | restore snapshot =>
    obtain rfl := Option.some.inj performs
    rcases restore_cases e snapshot with ⟨e', hok, hloads⟩ | ⟨f, herror⟩ | ⟨slots, f, herror, -⟩
    · have hasleep := (restore_asleep hf (h.created hloads.created) hok).here
      rw [hok]
      refine .still (List.forall_mem_nil _) hasleep.completion fun hcompleted => ?_
      cases hasleep.paused.symm.trans hcompleted
    · rw [herror]
      exact .still (List.forall_mem_nil _) completion status
    · rw [herror]
      exact .still (List.forall_mem_nil _) completion fun hcompleted => by cases hcompleted
  | dispose =>
    obtain rfl := Option.some.inj performs
    exact .still (List.forall_mem_nil _) completion fun hcompleted => by cases hcompleted

/-- A net that has completed or has been disposed of refuses whatever is asked of it. -/
theorem perform_ended (ended : e.status = .completed ∨ e.status = .disposed) {request : Request}
    (asks : op.request? = some request) (fuel : Nat) (s : Supply) : fuel = 0 ∧ e.perform fuel s op = none ∨
      e.perform fuel s op = some ⟨e, [], .error (.wrongState request e.status)⟩ := by
  cases op with
  | call call =>
    obtain rfl := Option.some.inj asks
    have hunexpected : e.status ≠ call.expects := by
      rcases ended with h | h <;> rw [h] <;> cases call <;> exact nofun
    rcases answer_unexpected hunexpected fuel s with ⟨hfuel, hnone⟩ | hrefused
    · exact .inl ⟨hfuel, congrArg (Option.map Run.outcome) hnone⟩
    · exact .inr (congrArg (Option.map Run.outcome) hrefused)
  | pause now =>
    obtain rfl := Option.some.inj asks
    have hnone : e.status.paused? = none := by
      rcases ended with h | h <;> rw [h] <;> rfl
    right
    rw [perform, pause_refused hnone]
    rfl
  | restore snapshot =>
    obtain rfl := Option.some.inj asks
    have hold : e.status ≠ .created := by
      rcases ended with h | h <;> rw [h] <;> exact nofun
    right
    rw [perform, restore_refused hold]
  | dispose => cases asks

/-- All that can become of such a net is that it is disposed of. -/
theorem same_or_disposed (ended : e.status = .completed ∨ e.status = .disposed)
    (performs : e.perform fuel s op = some out) :
    out.events = [] ∧ (out.engine = e ∨ out.engine = e.dispose) := by
  cases hrequest : op.request? with
  | none =>
    cases op with
    | dispose =>
      obtain rfl := Option.some.inj performs
      exact ⟨rfl, .inr rfl⟩
    | _ => cases hrequest
  | some request =>
    rcases perform_ended ended hrequest fuel s with ⟨-, hnone⟩ | hrefused
    · cases hnone.symm.trans performs
    · obtain rfl := Option.some.inj (hrefused.symm.trans performs)
      exact ⟨rfl, .inl rfl⟩

inductive Stage (plan : Plan) (events : List Event) (e : Engine) : Prop
  | still (quiet : ∀ event ∈ events, ¬ event.Final) (completion : e.completion = none)
      (status : e.status ≠ .completed)
  | ended {place : String} {t : Token} (concluded : Concluded plan events place t)
      (completion : e.completion = some (place, t)) (haltedBy : e.haltedBy = none)
      (status : e.status = .completed ∨ e.status = .disposed)

theorem Watched.stage (hf : fitter.Regular) (h : Watched fitter plan events e) :
    Stage plan events e := by
  induction h with
  | built build =>
    have hb := built_of_build build
    refine .still (List.forall_mem_nil _) hb.completion fun hcompleted => ?_
    cases hb.status.symm.trans hcompleted
  | @performed events e fuel s op out before performs ih =>
    cases ih with
    | still quiet completion status =>
      cases (before.reachable.steady hf).verdict hf completion status performs with
      | still more completion' status' =>
        refine .still (fun event hevent => ?_) completion' status'
        exact (List.mem_append.1 hevent).elim (quiet event) (more event)
      | concluded ends completion' haltedBy' status' =>
        exact .ended (ends.after quiet) completion' haltedBy' (.inl status')
    | ended concluded completion haltedBy status =>
      obtain ⟨hsilent, hsame | hdisposed⟩ := same_or_disposed status performs
      · rw [hsilent, List.append_nil, hsame]
        exact .ended concluded completion haltedBy status
      · rw [hsilent, List.append_nil, hdisposed]
        exact .ended concluded completion haltedBy (.inr rfl)

/-- What a net has reported of its completion, if it has, is the last thing that it has
reported, and it is what the net itself says of it. -/
structure Conclusive (plan : Plan) (events : List Event) (e : Engine) : Prop where
  stream : (∀ event ∈ events, ¬ event.Final) ∧ e.completion = none ∨
    ∃ place t, Concluded plan events place t ∧ e.completion = some (place, t)
  completion : e.status ≠ .disposed → (e.completion.isSome ↔ e.status = .completed)
  haltedBy : e.status = .completed → e.haltedBy = none

/-- An operation on a net that has not completed reports a completion exactly if it
completes the net. -/
theorem Verdict.final_iff (h : Verdict plan out) :
    (∃ event ∈ out.events, event.Final) ↔ out.engine.status = .completed := by
  cases h with
  | still quiet _ status =>
    exact ⟨fun ⟨event, hevent, hfinal⟩ => absurd hfinal (quiet event hevent),
      fun hcompleted => absurd hcompleted status⟩
  | @concluded place t ends _ _ status =>
    obtain ⟨front, -, -, -, hevents, -⟩ := ends
    refine ⟨fun _ => status, fun _ => ⟨.completed place t, ?_, trivial⟩⟩
    rw [hevents]
    exact List.mem_append_right _ List.mem_cons_self

theorem Stage.conclusive (h : Stage plan events e) : e.Conclusive plan events := by
  cases h with
  | still quiet completion status =>
    refine ⟨.inl ⟨quiet, completion⟩, fun _ => ?_, fun hcompleted => absurd hcompleted status⟩
    rw [completion]
    exact ⟨nofun, fun hcompleted => absurd hcompleted status⟩
  | ended concluded completion haltedBy status =>
    refine ⟨.inr ⟨_, _, concluded, completion⟩, fun hlasts => ?_, fun _ => haltedBy⟩
    rw [completion]
    exact ⟨fun _ => status.resolve_right hlasts, fun _ => rfl⟩

/-- An operation reports a completion exactly if it turns the status, and keeps what is
known of one. -/
theorem Stage.performed (hf : fitter.Regular) (hsteady : e.Steady fitter plan)
    (h : Stage plan events e) (performs : e.perform fuel s op = some out) :
    ((∃ event ∈ out.events, event.Final) ↔
      e.status ≠ .completed ∧ out.engine.status = .completed) ∧
    ∀ x, e.completion = some x → out.engine.completion = some x := by
  cases h with
  | still quiet completion status =>
    have hverdict := hsteady.verdict hf completion status performs
    refine ⟨hverdict.final_iff.trans ⟨fun hnow => ⟨status, hnow⟩, And.right⟩, fun x hx => ?_⟩
    cases completion.symm.trans hx
  | ended concluded completion haltedBy status =>
    obtain ⟨hsilent, hbecomes⟩ := same_or_disposed status performs
    refine ⟨⟨fun ⟨event, hevent, _⟩ => ?_, fun ⟨hopen, hcompleted⟩ => ?_⟩, fun x hx => ?_⟩
    · rw [hsilent] at hevent
      cases hevent
    · have hdisposed := status.resolve_left hopen
      rcases hbecomes with hsame | hdispose
      · rw [hsame] at hcompleted
        cases hdisposed.symm.trans hcompleted
      · rw [hdispose] at hcompleted
        cases hcompleted
    · rcases hbecomes with hsame | hdispose
      · rw [hsame]
        exact hx
      · rw [hdispose]
        exact hx

/-- The completion of a net is reported by the operation that completes it, and by no other,
and stays what it is. A completed net refuses everything but its end. -/
theorem completes_once (hf : fitter.Regular) (h : Watched fitter plan events e) :
    e.Conclusive plan events ∧
    (∀ fuel s op out, e.perform fuel s op = some out →
      ((∃ event ∈ out.events, event.Final) ↔
        e.status ≠ .completed ∧ out.engine.status = .completed) ∧
      ∀ x, e.completion = some x → out.engine.completion = some x) ∧
    (e.status = .completed → ∀ fuel s op request, op.request? = some request →
      e.perform (fuel + 1) s op = some ⟨e, [], .error (.wrongState request .completed)⟩) := by
  have hstage := h.stage hf
  refine ⟨hstage.conclusive, fun fuel s op out performs =>
    hstage.performed hf (h.reachable.steady hf) performs, fun hcompleted fuel s op request asks => ?_⟩
  have hrefused := (perform_ended (.inl hcompleted) asks (fuel + 1) s).resolve_left nofun
  rw [hcompleted] at hrefused
  exact hrefused

/-- A plan whose first step puts a token into either of two terminal places. -/
def race : Plan where
  id := "race"
  version := 1
  places := [{ id := "in", role := .start }, { id := "gold", role := .terminal },
    { id := "silver", role := .terminal }]
  steps := [⟨"run", none, ["in"], ["gold", "silver"], .split⟩]

/-- Both tokens of a race arrive, and the first one has won for good. -/
theorem race_completes_once : ∃ (events : List Event) (e : Engine) (t : Token),
    Watched .standard race events e ∧ e.status = .completed ∧
    (e.holdings.map fun hold => hold.tokens.map (·.id)) = [[], [⟨1⟩], [⟨2⟩]] ∧ t.id = ⟨1⟩ ∧
    Concluded race events "gold" t ∧ e.completion = some ("gold", t) ∧
    e.dispose.completion = some ("gold", t) ∧ ∀ now, e.perform 1 serial (.pause now) =
      some ⟨e, [], .error (.wrongState .pause .completed)⟩ := by
  have hfacts : ((build .standard race).toOption.bind fun e =>
      (e.answer 20 serial (.start job)).map fun run =>
        (run.engine.status, (run.engine.holdings.map fun hold => hold.tokens.map (·.id)),
          run.engine.completion.map fun x => (x.1, x.2.id))) =
      some (.completed, [[], [⟨1⟩], [⟨2⟩]], some ("gold", ⟨1⟩)) := by
    decide +kernel
  obtain ⟨e, hbuild⟩ : ∃ e, build .standard race = .ok e := ⟨_, rfl⟩
  rw [hbuild] at hfacts
  obtain ⟨run, hanswer, hfacts⟩ := Option.map_eq_some_iff.1 hfacts
  simp only [Prod.mk.injEq] at hfacts
  obtain ⟨hcompleted, hheld, hmap⟩ := hfacts
  obtain ⟨⟨place, t⟩, hcompletion, hid⟩ := Option.map_eq_some_iff.1 hmap
  obtain ⟨rfl, hid⟩ := Prod.mk.inj hid
  have hperforms : e.perform 20 serial (.call (.start job)) = some run.outcome :=
    congrArg (Option.map Run.outcome) hanswer
  have hwatched : Watched .standard race run.events run.engine :=
    .performed (.built hbuild) hperforms
  obtain ⟨⟨hstream, -, -⟩, hoperations, hrefuses⟩ :=
    completes_once Fitter.standard_regular hwatched
  rcases hstream with ⟨-, hnone⟩ | ⟨place', t', hconcluded, hsame⟩
  · cases hnone.symm.trans hcompletion
  · obtain ⟨rfl, rfl⟩ := Prod.mk.inj (Option.some.inj (hsame.symm.trans hcompletion))
    exact ⟨run.events, run.engine, t', hwatched, hcompleted, hheld, hid, hconcluded, hcompletion,
      (hoperations 1 serial .dispose _ rfl).2 _ hcompletion,
      fun now => hrefuses hcompleted 0 serial (.pause now) .pause rfl⟩

end Engine
end RecipeNet
