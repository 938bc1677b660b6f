import RecipeNet.CommandLine.Session
import RecipeNet.Proofs.Net.Custody
import RecipeNet.Proofs.Net.Leading

/-!
Whose turn it is. A session finishes activities in the order in which they have been
reported, whether or not its net still waits for them. The net refuses the one whose turn
has come if a nested plan around it has ended in the meantime, and for no other reason.
-/

namespace RecipeNet

/-- An activity at an address has been overtaken: a net around it runs no more, or a step
around it has fired since the activity began. -/
def Engine.Overtakes (e : Engine) (path : List String) (since : List Event) : Prop :=
  e.custody path = none ∨ Renews path since

namespace CommandLine

/-- The output that is chosen for an activity is one that each task with it has. -/
def Options.Suits (o : Options) (plan : Plan) : Prop :=
  ∀ path activity outs, plan.Leads path activity outs → o.resultFor activity < outs

def Session.opened (options : Options) (run : Run) : Session :=
  { options, engine := run.engine, supply := run.supply, fresh := run.events }

/-- A session that a run from the beginning comes to, with all that its net has reported. -/
inductive Session.Reached (options : Options) (plan : Plan) : List Event → Session → Prop
  | begun {e : Engine} {fuel : Nat} {supply : Supply} {run : Run}
      (build : Engine.build .standard plan = .ok e) (start : e.start fuel supply = some run)
      (ok : run.result = .ok ()) (time : Option Nat) :
    Reached options plan run.events ((Session.opened options run).settle time)
  | moved {log : List Event} {s s' : Session} {fuel : Nat} {now : Timestamp}
      (before : Reached options plan log s) (moves : s.next fuel now = some (.on s'))
      (time : Option Nat) : Reached options plan (log ++ s'.fresh) (s'.settle time)

def Activity.key (a : Activity) : List String × TokenId := (a.step.path, a.token)

theorem Activity.starts_eq (events : List Event) :
    (events.filterMap Activity.ofEvent?).map Activity.key = starts events := by
  rw [List.map_filterMap, starts]
  congr 1
  funext e
  cases e <;> rfl

/-- What a net holds agrees with what it has reported and with what waits to be finished. -/
structure Accounted (log : List Event) (queue : List (List String × TokenId)) (c : Custody) :
    Prop where
  waiting : ∀ path id, queue.count (path, id) ≤ (starts log).count (path, id)
  known : ∀ path held, c path = some held → held ⊆ tally path [] log
  counted : ∀ path id held, c path = some held → copies id (tally path [] log) +
    queue.count (path, id) ≤ copies id held + (starts log).count (path, id)

namespace Accounted

variable {log : List Event} {queue : List (List String × TokenId)} {c : Custody}

/-- What is reported is held and waits. -/
theorem after (h : Accounted log queue c) {run : Run} (tells : run.Tells c) :
    Accounted (log ++ run.events) (queue ++ starts run.events) run.engine.custody := by
  refine ⟨fun path id => ?_, fun path held hheld => ?_, fun path id held hheld => ?_⟩
  · rw [starts_append, List.count_append, List.count_append]
    exact Nat.add_le_add_right (h.waiting path id) _
  · exact (hheld ▸ tells.traced path).known (h.known path)
  · rw [List.count_append]
    exact (hheld ▸ tells.traced path).counted (h.waiting path id) (h.counted path id)

theorem copies_eraseIdx {held : List Token} {j : Nat} {t : Token} (hat : held[j]? = some t)
    (id : TokenId) : copies id (held.eraseIdx j) + (if t.id = id then 1 else 0) = copies id held := by
  obtain ⟨hlt, rfl⟩ := List.getElem?_eq_some_iff.1 hat
  have hperm := (List.getElem_cons_eraseIdx_perm hlt).countP_eq (·.id == id)
  rw [List.countP_cons] at hperm
  simpa [copies] using hperm

/-- What is finished is neither held any more nor waits. -/
theorem finished {path : List String} {id : TokenId} (h : Accounted log ((path, id) :: queue) c)
    {held : List Token} {j : Nat} {t : Token} (hheld : c path = some held) (hat : held[j]? = some t)
    (hid : t.id = id) : Accounted log queue (c.release path j) := by
  have hreleased : ∀ p held', c.release path j p = some held' → p ≠ path ∧ c p = some held' ∨
      p = path ∧ held' = held.eraseIdx j := by
    intro p held' hp
    by_cases hpath : p = path
    · subst hpath
      rw [Custody.release, if_pos rfl, hheld] at hp
      exact .inr ⟨rfl, (Option.some.inj hp).symm⟩
    · rw [Custody.release, if_neg hpath] at hp
      exact .inl ⟨hpath, hp⟩
  refine ⟨fun p i => ?_, fun p held' hp => ?_, fun p i held' hp => ?_⟩
  · exact (List.count_le_count_cons).trans (h.waiting p i)
  · rcases hreleased p held' hp with ⟨-, hp⟩ | ⟨rfl, rfl⟩
    · exact h.known p held' hp
    · exact fun x hx => h.known p held hheld (List.mem_of_mem_eraseIdx hx)
  · rcases hreleased p held' hp with ⟨hother, hp⟩ | ⟨rfl, rfl⟩
    · have hcounted := h.counted p i held' hp
      rw [List.count_cons] at hcounted
      omega
    · have hcounted := h.counted p i held hheld
      have herase := copies_eraseIdx hat i
      rw [List.count_cons] at hcounted
      simp only [hid, beq_iff_eq, Prod.mk.injEq, true_and] at hcounted herase
      omega

end Accounted

namespace Session

variable {options : Options} {plan : Plan} {log : List Event} {s s' : Session} {fuel : Nat}
  {now : Timestamp} {activity : Activity} {rest : List Activity}

/-- A session goes on with the activity whose turn it is. -/
theorem next_on (h : s.next fuel now = some (.on s')) :
    ∃ activity rest run, s.activities = activity :: rest ∧ s.engine.status = .running ∧
      s.engine.complete fuel activity.step.path activity.token
        (s.options.resultFor activity.name) s.supply = some run ∧ run.result = .ok () ∧
      s' = { s with
        engine := run.engine, supply := run.supply, activities := rest, fresh := run.events } := by
  unfold next at h
  split at h
  · split at h <;> cases h
  split at h
  · cases h
  rename_i hrunning
  split at h
  · cases h
  · rename_i activity rest hturn
    obtain ⟨run, hrun, hmove⟩ := Option.map_eq_some_iff.1 h
    split at hmove
    · cases hmove
    · rename_i hok
      cases hmove
      exact ⟨activity, rest, run, hturn, not_not.1 hrunning, hrun, hok, rfl⟩

structure Sound (options : Options) (plan : Plan) (log : List Event) (s : Session) : Prop where
  options : s.options = options
  watched : Engine.Watched .standard plan log s.engine
  leads : ∀ path activity t, .started ⟨path⟩ activity t ∈ log → ∃ outs, plan.Leads path activity outs
  reported : ∀ activity ∈ s.activities, ∃ event ∈ log, Activity.ofEvent? event = some activity
  accounted : Accounted log (s.activities.map Activity.key) s.engine.custody

theorem Sound.steady (h : s.Sound options plan log) : s.engine.Steady .standard plan :=
  h.watched.reachable.steady Fitter.standard_regular

theorem Sound.distinct (h : s.Sound options plan log) : s.engine.Distinct :=
  h.steady.fits.imp fun _ he => he.distinctSteps

theorem sound_begun {e : Engine} {supply : Supply} {run : Run}
    (build : Engine.build .standard plan = .ok e) (start : e.start fuel supply = some run)
    (ok : run.result = .ok ()) (time : Option Nat) :
    ((opened options run).settle time).Sound options plan run.events := by
  have hb := Engine.built_of_build build
  obtain ⟨supply', t, hanswer⟩ : ∃ supply' t, e.answer fuel supply' (.start t) = some run := by
    rw [Engine.start, if_neg (fun hpaused => by cases hb.status.symm.trans hpaused)] at start
    exact ⟨_, _, start⟩
  have hperforms : e.perform fuel supply' (.call (.start t)) = some run.outcome :=
    congrArg (Option.map Run.outcome) hanswer
  have htells := Engine.startWith_tells build hanswer ok
  have hnothing : Accounted [] [] (e.entered t).custody := by
    refine ⟨fun _ _ => Nat.le_refl _, fun path held hheld => ?_, fun path id held _ => Nat.zero_le _⟩
    rcases hb.custody_entered t path with hnone | hempty
    · cases hnone.symm.trans hheld
    · obtain rfl := Option.some.inj (hempty.symm.trans hheld)
      exact List.Subset.refl _
  refine ⟨rfl, .performed (.built build) hperforms, fun path name u hmem => ?_, fun a ha => ?_, ?_⟩
  · exact (Engine.Steady.of_build build).leads hanswer hmem
  · exact List.mem_filterMap.1 ha
  · show Accounted run.events ((run.events.filterMap Activity.ofEvent?).map Activity.key)
      run.engine.custody
    rw [Activity.starts_eq]
    exact hnothing.after htells

theorem Sound.moved (h : s.Sound options plan log) (moves : s.next fuel now = some (.on s'))
    (time : Option Nat) : (s'.settle time).Sound options plan (log ++ s'.fresh) := by
  obtain ⟨activity, rest, run, hturn, hrunning, hrun, hok, rfl⟩ := next_on moves
  have hanswer : s.engine.answer fuel s.supply (.complete activity.step.path activity.token
      (s.options.resultFor activity.name)) = some run := hrun
  have hperforms : s.engine.perform fuel s.supply (.call _) = some run.outcome :=
    congrArg (Option.map Run.outcome) hanswer
  have haccounted := h.accounted
  rw [hturn] at haccounted
  obtain ⟨held, j, t, hheld, hat, hid, htells⟩ := Engine.complete_tells h.distinct hrun hok
  have hnow := (haccounted.finished hheld hat hid).after htells
  refine ⟨h.options, h.watched.performed hperforms, ?_, ?_, ?_⟩
  · intro path name u hmem
    rcases List.mem_append.1 hmem with hold | hnew
    · exact h.leads path name u hold
    · exact h.steady.leads hanswer hnew
  · intro a ha
    rcases List.mem_append.1 ha with hold | hnew
    · obtain ⟨event, hevent, hof⟩ := h.reported a (hturn ▸ List.mem_cons_of_mem _ hold)
      exact ⟨event, List.mem_append_left _ hevent, hof⟩
    · obtain ⟨event, hevent, hof⟩ := List.mem_filterMap.1 hnew
      exact ⟨event, List.mem_append_right _ hevent, hof⟩
  · rw [settle, List.map_append, Activity.starts_eq]
    exact hnow

theorem Reached.sound (h : Reached options plan log s) : s.Sound options plan log := by
  induction h with
  | begun build start ok time => exact sound_begun build start ok time
  | moved _ moves time ih => exact ih.moved moves time

/-- The activity whose turn it is has begun, and is one of a task of the plan. -/
theorem Sound.turn (h : s.Sound options plan log) (turn : s.activities = activity :: rest) :
    (∃ since, Began log activity.step.path activity.token since) ∧
      ∃ outs, plan.Leads activity.step.path activity.name outs := by
  obtain ⟨event, hevent, hof⟩ := h.reported activity (turn ▸ List.mem_cons_self)
  cases event with
  | fired | completed => cases hof
  | started step name t =>
    cases hof
    exact ⟨began_of_mem (List.mem_filterMap.2 ⟨_, hevent, rfl⟩), h.leads _ _ _ hevent⟩

/-- What the net waits for under the address and the token of an activity is the activity. -/
theorem Sound.takes (h : s.Sound options plan log) (suits : options.Suits plan) {path : List String}
    {held : List Token} {t : Token} (hheld : s.engine.custody path = some held) (ht : t ∈ held)
    {name : String} {outs : Nat} (leads : plan.Leads path name outs) :
    s.engine.Takes path t.id (s.options.resultFor name) := by
  obtain ⟨other, more, hawaits⟩ := Engine.awaits_of_custody hheld ht
  have hfits := h.steady.fits
  have hother := hawaits.leads hfits
  rw [h.steady.runs] at hother
  have hsound : plan.flaws = [] := h.steady.runs ▸ (Engine.built_of_build hfits.here.1).sound
  obtain ⟨rfl, rfl⟩ := leads.unique hsound hother
  rw [h.options]
  exact ⟨_, t, _, hawaits, rfl, suits _ _ _ leads⟩

/-- What the net takes can be finished, unless the net halts of it. -/
theorem Sound.finish_taken (h : s.Sound options plan log) (running : s.engine.status = .running)
    (takes : s.engine.Takes activity.step.path activity.token (s.options.resultFor activity.name))
    {f : Fault} (hfail : s.finish fuel activity rest = some (.fail f)) : f.halts = true := by
  obtain ⟨run, hrun, hmove⟩ := Option.map_eq_some_iff.1 hfail
  have hresult : run.result = .error f := by
    split at hmove
    · rename_i f' hf'
      cases hmove
      exact hf'
    · cases hmove
  have hsteady := h.steady
  rcases Engine.received Fitter.standard_regular fuel _ _ _ (Engine.sound_lore hsteady.fits s.supply)
    (hsteady.running running) with ⟨-, hproper⟩ | ⟨hastray, -, -⟩
  · exact ((hproper run hrun).error f hresult).1
  · exact absurd takes hastray

/-- What the net does not take is refused for not being waited for. -/
theorem Sound.finish_astray (h : s.Sound options plan log) (suits : options.Suits plan)
    (running : s.engine.status = .running) {outs : Nat}
    (leads : plan.Leads activity.step.path activity.name outs)
    (astray : ¬ s.engine.Takes activity.step.path activity.token (s.options.resultFor activity.name))
    (fuel : Nat) : ∃ step,
      s.finish fuel activity rest = some (.fail (.notAwaiting step activity.token)) := by
  have hsteady := h.steady
  have hplan : s.engine.plan.Leads activity.step.path activity.name outs := hsteady.runs.symm ▸ leads
  have hout : s.options.resultFor activity.name < outs := h.options ▸ suits _ _ _ leads
  obtain ⟨step, hrefused⟩ := Engine.complete_astray hsteady.fits (hsteady.running running) hplan hout
    astray fuel s.supply
  refine ⟨step, ?_⟩
  rw [finish, hrefused]
  rfl

/-- The activity whose turn it is is held by its task, unless it has been overtaken. -/
theorem Sound.takes_turn (h : s.Sound options plan log) (suits : options.Suits plan)
    (turn : s.activities = activity :: rest)
    (standing : ∀ since, Began log activity.step.path activity.token since →
      ¬ s.engine.Overtakes activity.step.path since) :
    s.engine.Takes activity.step.path activity.token (s.options.resultFor activity.name) := by
  obtain ⟨⟨since, hbegan⟩, outs, hleads⟩ := h.turn turn
  cases hheld : s.engine.custody activity.step.path with
  | none => exact absurd (.inl hheld) (standing since hbegan)
  | some held =>
    have hknown := starts_le_copies fun since hbegan hrenews => standing since hbegan (.inr hrenews)
    have hcounted := h.accounted.counted activity.step.path activity.token held hheld
    rw [turn, List.map_cons] at hcounted
    change _ + List.count activity.key (activity.key :: _) ≤ _ at hcounted
    rw [List.count_cons_self] at hcounted
    have hpos : 0 < copies activity.token held := by omega
    obtain ⟨t, ht, hid⟩ := List.countP_pos_iff.1 hpos
    have htakes := h.takes suits hheld ht hleads
    rwa [beq_iff_eq.1 hid] at htakes

/-- What the net takes has begun and has not been overtaken since. -/
theorem Sound.standing (h : s.Sound options plan log) {path : List String} {token : TokenId}
    {output : Nat} (takes : s.engine.Takes path token output) :
    ∃ since, Began log path token since ∧ ¬ s.engine.Overtakes path since := by
  obtain ⟨name, t, outs, hawaits, rfl, -⟩ := takes
  obtain ⟨held, hheld, ht⟩ := hawaits.custody h.distinct
  obtain ⟨since, hbegan, hquiet⟩ := began_of_mem_tally (h.accounted.known path held hheld ht)
  refine ⟨since, hbegan, ?_⟩
  rintro (hgone | hrenews)
  · cases hgone.symm.trans hheld
  · exact hquiet hrenews

/-- The activity whose turn it is has begun earlier in the run. When it is finished the net
takes it, or refuses it for not being waited for. It is taken if nothing has overtaken it, and
refused if it has been overtaken; nothing but the end of a nested plan overtakes. -/
theorem refused_iff_overtaken (h : Reached options plan log s) (suits : options.Suits plan)
    (running : s.engine.status = .running) (turn : s.activities = activity :: rest) :
    (∃ since, Began log activity.step.path activity.token since) ∧
    (∀ fuel f, s.finish fuel activity rest = some (.fail f) →
      f.halts = true ∨ ∃ step, f = .notAwaiting step activity.token) ∧
    ((∀ since, Began log activity.step.path activity.token since →
        ¬ s.engine.Overtakes activity.step.path since) →
      ∀ fuel f, s.finish fuel activity rest = some (.fail f) → f.halts = true) ∧
    ((∀ since, Began log activity.step.path activity.token since →
        s.engine.Overtakes activity.step.path since) →
      ∀ fuel, ∃ step, s.finish fuel activity rest = some (.fail (.notAwaiting step activity.token))) := by
  have hsound := h.sound
  obtain ⟨hbegan, outs, hleads⟩ := hsound.turn turn
  refine ⟨hbegan, fun fuel f hfail => ?_, fun standing fuel f hfail => ?_, fun overtaken fuel => ?_⟩
  · by_cases htakes : s.engine.Takes activity.step.path activity.token
      (s.options.resultFor activity.name)
    · exact .inl (hsound.finish_taken running htakes hfail)
    · obtain ⟨step, hrefused⟩ := hsound.finish_astray suits running hleads htakes fuel
      cases hrefused.symm.trans hfail
      exact .inr ⟨step, rfl⟩
  · exact hsound.finish_taken running (hsound.takes_turn suits turn standing) hfail
  · refine hsound.finish_astray suits running hleads (fun htakes => ?_) fuel
    obtain ⟨since, hbegan, hstanding⟩ := hsound.standing htakes
    exact hstanding (overtaken since hbegan)

def onward? : Option Move → Option Session
  | some (.on s) => some s
  | _ => none

def fault? : Option Move → Option Fault
  | some (.fail f) => some f
  | _ => none

theorem onward_eq {move : Option Move} (h : onward? move = some s) : move = some (.on s) := by
  match move with
  | some (.on _) => cases h; rfl
  | some (.pause _ _) | some (.stop _) | some (.fail _) | none => cases h

theorem fault_eq {move : Option Move} {f : Fault} (h : fault? move = some f) : move = some (.fail f) := by
  match move with
  | some (.fail _) => cases h; rfl
  | some (.pause _ _) | some (.stop _) | some (.on _) | none => cases h

/-- A plan that ends as soon as one of its two activities has finished. -/
def hasty : Plan where
  id := "inner"
  version := 1
  places := [{ id := "s", role := .start }, { id := "a" }, { id := "b" },
    { id := "e", role := .terminal }]
  steps := [⟨"split", none, ["s"], ["a", "b"], .split⟩,
    ⟨"left", none, ["a"], ["e"], .task "left"⟩, ⟨"right", none, ["b"], ["e"], .task "right"⟩]

/-- A hasty plan with a last activity after it. -/
def relay : Plan where
  id := "outer"
  version := 1
  places := [{ id := "in", role := .start }, { id := "mid" }, { id := "out", role := .terminal }]
  steps := [⟨"nest", none, ["in"], ["mid"], .nested hasty .empty⟩,
    ⟨"last", none, ["mid"], ["out"], .task "last"⟩]

/-- When the first activity has finished, the other one of the hasty plan is next, and it is
no longer waited for. -/
theorem relay_reached : ∃ (log : List Event) (s : Session) (activity : Activity)
    (rest : List Activity), Reached {} relay log s ∧ s.engine.status = .running ∧
    s.activities = activity :: rest ∧ activity.step.path = ["nest", "right"] ∧
    s.engine.custody ["nest", "right"] = none ∧
    s.next 40 default = some (.fail (.notAwaiting "right" ⟨4⟩)) := by
  have hfacts : ((Engine.build .standard relay).toOption.bind fun e =>
      (e.start 40 Engine.serial).bind fun run =>
      (onward? (((opened {} run).settle none).next 40 default)).map fun s =>
        (run.result.isOk, (s.settle none).engine.status, (s.settle none).activities.map (·.step.path),
          ((s.settle none).engine.custody ["nest", "right"]).isNone,
          decide (fault? ((s.settle none).next 40 default) = some (.notAwaiting "right" ⟨4⟩)))) =
      some (true, .running, [["nest", "right"], ["last"]], true, true) := by
    decide +kernel
  obtain ⟨e, hbuild⟩ : ∃ e, Engine.build .standard relay = .ok e := ⟨_, rfl⟩
  rw [hbuild] at hfacts
  obtain ⟨_, hsame, hfacts⟩ := Option.bind_eq_some_iff.1 hfacts
  cases hsame
  obtain ⟨run, hstart, hfacts⟩ := Option.bind_eq_some_iff.1 hfacts
  obtain ⟨s, hmoves, hfacts⟩ := Option.map_eq_some_iff.1 hfacts
  simp only [Prod.mk.injEq] at hfacts
  obtain ⟨hok, hrunning, hpaths, hgone, hfault⟩ := hfacts
  have hresult : run.result = .ok () := by
    cases hresult : run.result with
    | ok u => rfl
    | error f =>
      rw [hresult] at hok
      cases hok
  obtain ⟨activity, rest, hturn, hpath, -⟩ := List.map_eq_cons_iff.1 hpaths
  exact ⟨_, _, activity, rest, .moved (.begun hbuild hstart hresult none) (onward_eq hmoves) none,
    hrunning, hturn, hpath, Option.isNone_iff_eq_none.1 hgone, fault_eq (of_decide_eq_true hfault)⟩

theorem relay_suits : Options.Suits {} relay := by
  intro path name outs leads
  show 0 < outs
  cases leads with
  | task stands task =>
    rcases List.mem_pair.1 stands with rfl | rfl
    · cases task
    · exact Nat.zero_lt_one
  | nested stands nested inside =>
    rcases List.mem_pair.1 stands with rfl | rfl
    · cases nested
      cases inside with
      | task stands task =>
        rcases List.mem_cons.1 stands with rfl | hrest
        · cases task
        · rcases List.mem_pair.1 hrest with rfl | rfl <;> exact Nat.zero_lt_one
      | nested stands nested =>
        rcases List.mem_cons.1 stands with rfl | hrest
        · cases nested
        · rcases List.mem_pair.1 hrest with rfl | rfl <;> cases nested
    · cases nested

/-- The other activity of the hasty plan has been overtaken, and is refused. -/
theorem relay_refused : ∃ (log : List Event) (s : Session) (activity : Activity)
    (rest : List Activity), Reached {} relay log s ∧ Options.Suits {} relay ∧
    s.engine.status = .running ∧ s.activities = activity :: rest ∧
    (∀ since, Began log activity.step.path activity.token since →
      s.engine.Overtakes activity.step.path since) ∧
    ∀ fuel, ∃ step, s.finish fuel activity rest = some (.fail (.notAwaiting step activity.token)) := by
  obtain ⟨log, s, activity, rest, hreached, hrunning, hturn, hpath, hgone, -⟩ := relay_reached
  have hovertaken : ∀ since, Began log activity.step.path activity.token since →
      s.engine.Overtakes activity.step.path since := fun _ _ => .inl (hpath ▸ hgone)
  obtain ⟨-, -, -, hrefused⟩ := refused_iff_overtaken hreached relay_suits hrunning hturn
  exact ⟨log, s, activity, rest, hreached, relay_suits, hrunning, hturn, hovertaken,
    hrefused hovertaken⟩

/-- A run from the beginning can fail although nothing has halted its net. -/
theorem relay_aborted : ¬ ∀ (options : Options) (plan : Plan) (log : List Event) (s : Session),
    Reached options plan log s → options.Suits plan → s.engine.status = .running →
    ∀ fuel now f, s.next fuel now = some (.fail f) → f.halts = true := by
  intro hclaim
  obtain ⟨log, s, _, _, hreached, hrunning, -, -, -, hfail⟩ := relay_reached
  cases hclaim _ _ log s hreached relay_suits hrunning _ _ _ hfail

end Session

end CommandLine
end RecipeNet
