import RecipeNet.Proofs.Asks
import RecipeNet.Proofs.Conclusion
import RecipeNet.Proofs.Plan.Wrapping

/-!
Nets that do nothing but run another one. Whatever the net within does, the net around it
does the same in one step: it has the same status, reports the same with longer addresses,
and when the net within completes, gives the token out at the end that belongs to it.
-/

namespace RecipeNet

/-- How a net comes to a stop that has been set to work. -/
inductive Run.Stops (plan : Plan) (run : Run) : Prop
  | rests (quiet : ∀ event ∈ run.events, ¬ event.Final) (completion : run.engine.completion = none)
      (spared : ∀ f, run.result = .error f → f.halts = false) (status : run.engine.status = .running)
      (haltedBy : run.engine.haltedBy = none)
  | halts (quiet : ∀ event ∈ run.events, ¬ event.Final) (completion : run.engine.completion = none)
      {f : Fault} (result : run.result = .error f) (halts : f.halts = true)
      (status : run.engine.status = .halted) (haltedBy : run.engine.haltedBy = some f)
  | completes {place : String} {u : Token} (events : Engine.Concluded plan run.events place u)
      (completion : run.engine.completion = some (place, u)) (result : run.result = .ok ())
      (status : run.engine.status = .completed) (haltedBy : run.engine.haltedBy = none)

namespace Engine

variable {fitter : Fitter} {plan : Plan} {e : Engine} {fuel : Nat} {s : Supply}

/-- A net that a call suits comes to a stop if the call is answered. -/
theorem Steady.stops (hf : fitter.Regular) (h : e.Steady fitter plan) {call : Call}
    (suits : e.status = call.expects) {run : Run} (hrun : e.answer fuel s call = some run) :
    run.Stops plan := by
  have hongoing : e.Ongoing := by
    cases call with
    | start t =>
      have hb := built_of_build (h.created suits)
      exact ⟨hb.completion, hb.haltedBy⟩
    | complete => exact (h.running suits).ongoing.here
    | resume => exact (h.paused suits).ongoing.here
  have hopen : e.status ≠ .completed := by
    rw [suits]
    cases call <;> exact nofun
  have hverdict := h.verdict_answer hf hongoing.completion hopen hrun
  rcases h.answer hf hrun with ⟨f, hrefusal, rfl⟩ | ⟨-, hproper⟩
  · cases hrefusal with
    | start t isNew => exact absurd suits isNew
    | complete path token output f caller =>
      refine .rests (List.forall_mem_nil _) hongoing.completion (fun g hg => ?_) suits
        hongoing.haltedBy
      cases hg
      exact caller.spares
    | resume isPaused => exact absurd suits isPaused
  · cases hverdict with
    | still quiet completion status =>
      cases hresult : run.result with
      | ok =>
        have hawake := (hproper.ok hresult).resolve_left status
        refine .rests quiet completion (fun f hf => ?_) hawake.here.running hawake.here.haltedBy
        cases hresult.symm.trans hf
      | error f =>
        obtain ⟨hhalts, hhalted, hby⟩ := hproper.error f hresult
        exact .halts quiet completion hresult hhalts hhalted hby
    | concluded events completion haltedBy status =>
      cases hresult : run.result with
      | ok => exact .completes events completion hresult status haltedBy
      | error f => cases status.symm.trans (hproper.error f hresult).2.1

end Engine

namespace Wrapping

variable {x : Wrapping} {w : Plan} {t : Token} {inner outer : Engine} {outs : List Nat}
  {phase : Phase} {tr : Transition}

def nest (w : Plan) : Nest := ⟨w, .of w .empty, .standard⟩

def Leads (x : Wrapping) (outs : List Nat) : Prop :=
  List.Forall₂ (fun place out => x.places[out]? = some (terminal place)) x.ends outs

def slot (x : Wrapping) (outs : List Nat) (phase : Phase) (tr : Transition) : Slot :=
  ⟨x.step, [0], outs, phase, tr⟩

/-- A net whose only step runs the net within for a token. -/
structure Holds (x : Wrapping) (w : Plan) (t : Token) (inner outer : Engine) : Prop where
  slots : ∃ outs phase, x.Leads outs ∧ outer.slots = [x.slot outs phase (.busy (nest w) t inner)]
  holdings : outer.holdings = x.places.map Holding.new
  status : outer.status = inner.status
  haltedBy : outer.haltedBy = inner.haltedBy
  inside : inner.completion = none
  outside : outer.completion = none
  live : inner.status = .running ∨ inner.status = .paused ∨ inner.status = .halted

/-- The net within has completed in one of its terminal places, and the net around it has
in its own with the token. -/
structure Ended (x : Wrapping) (w : Plan) (t : Token) (inner outer : Engine) : Prop where
  inside : inner.status = .completed
  outside : outer.status = .completed
  haltedBy : outer.haltedBy = inner.haltedBy
  place : ∃ (i : Nat) (place stop : PlaceSpec) (u : Token), w.terminals[i]? = some place ∧
    (x.plan w).terminals[i]? = some stop ∧ inner.completion = some (place.id, u) ∧
    outer.completion = some (stop.id, t)

def Around (x : Wrapping) (w : Plan) (t : Token) (inner outer : Engine) : Prop :=
  x.Holds w t inner outer ∨ x.Ended w t inner outer

/-- How the net around tells what the net within does. -/
inductive Tells (x : Wrapping) (w : Plan) (t : Token) : Event → Event → Prop
  | fired (step : Address) : Tells x w t (.fired step) (.fired (step.within x.step))
  | started (step : Address) (activity : String) (u : Token) :
    Tells x w t (.started step activity u) (.started (step.within x.step) activity u)
  | completed {i : Nat} {place stop : PlaceSpec} (u : Token) (inside : w.terminals[i]? = some place)
      (outside : (x.plan w).terminals[i]? = some stop) :
    Tells x w t (.completed place.id u) (.completed stop.id t)

/-- What comes of the net within and of the net around it, which has told something before. -/
structure Follows (x : Wrapping) (w : Plan) (t : Token) (before : List Event) (inside outside : Run) :
    Prop where
  supply : outside.supply = inside.supply
  result : outside.result = inside.result
  events : ∃ later, outside.events = before ++ later ∧
    List.Forall₂ (x.Tells w t) inside.events later
  engine : x.Around w t inside.engine outside.engine

/-- Reports other than of a completion are told with a longer address. -/
theorem tells_quiet {events : List Event} (quiet : ∀ event ∈ events, ¬ event.Final) :
    List.Forall₂ (x.Tells w t) events (events.filterMap (·.within x.step)) := by
  induction events with
  | nil => exact .nil
  | cons event rest ih =>
    have hrest := ih fun other hother => quiet other (List.mem_cons_of_mem _ hother)
    cases event with
    | fired step => exact .cons (.fired step) hrest
    | started step activity u => exact .cons (.started step activity u) hrest
    | completed place u => exact absurd trivial (quiet _ List.mem_cons_self)

def reaction (x : Wrapping) (outs : List Nat) (before : List Event) : Reaction where
  step := x.step
  inputs := [0]
  outputs := outs
  holdings := x.places.map Holding.new
  events := before

/-- A step that has nothing in front of it settles at once. -/
theorem settle_quiet {before : List Event} {next : Reaction → Token → Supply → Option Reacted}
    {run : Run} (quiet : ∀ event ∈ run.events, ¬ event.Final) :
    (nest w).settle next t run (x.reaction outs before) =
      some ⟨x.reaction outs (before ++ run.events.filterMap (·.within x.step)),
        .busy (nest w) t run.engine, run.supply, run.result⟩ := by
  unfold Nest.settle
  rw [Nest.absorb_quiet quiet]
  cases run.result <;> rfl

theorem settle_completed {before front : List Event} {place : String} {u : Token} {i target : Nat}
    {next : Reaction → Token → Supply → Option Reacted} {run : Run}
    (events : run.events = front ++ [.completed place u]) (quiet : ∀ event ∈ front, ¬ event.Final)
    (result : run.result = .ok ()) (mapped : (nest w).outputs.output? place = some i)
    (leads : outs[i]? = some (target + 1)) :
    (nest w).settle next t run (x.reaction outs before) =
      some ⟨(x.reaction outs (before ++ front.filterMap (·.within x.step))).put (target + 1) t,
        .idle (nest w), run.supply, .ok ()⟩ := by
  unfold Nest.settle
  rw [events, Nest.absorb_completed quiet mapped leads, result]
  rfl

def shell (x : Wrapping) (outs : List Nat) (phase : Phase) (tr : Transition) (outer : Engine) :
    Engine :=
  { outer with holdings := x.places.map Holding.new, slots := [x.slot outs phase tr] }

def finished (x : Wrapping) (outs : List Nat) (phase : Phase) (tr : Transition) (outer : Engine)
    (target : Nat) (stop : PlaceSpec) (t : Token) : Engine :=
  { outer with
    status := .completed
    completion := some (stop.id, t)
    holdings := (x.places.map Holding.new).modify (target + 1) (·.add t)
    slots := [x.slot outs phase tr] }

def heeding (e : Engine) : Except Fault Unit → Engine
  | .ok () => e
  | .error f => e.halt f

/-- What the net does with the reaction of its only step. -/
theorem visit_quiet {before : List Event} {s : Supply} {tr' : Transition}
    (slots : outer.slots = [x.slot outs phase tr]) (result : Except Fault Unit) (fuel : Nat) :
    (outer.visited 0 ⟨x.reaction outs before, tr', s, result⟩).andThen (Engine.drive (fuel + 1)) [] =
      some ⟨heeding (x.shell outs phase tr' outer) result, s, before, result⟩ := by
  have hstep : outer.withReacted 0 ⟨x.reaction outs before, tr', s, result⟩ =
      x.shell outs phase tr' outer := by
    unfold Engine.withReacted
    rw [slots]
    rfl
  have hproduced : (x.reaction outs before).produced = [] := rfl
  unfold Engine.visited
  rw [hstep, hproduced]
  cases result with
  | error f => rfl
  | ok =>
    simp only [Engine.acceptAll, Engine.Visit.andThen, Engine.drive, Option.map_some, Run.after,
      List.append_nil]
    rfl

/-- Only the place before the step is read. -/
theorem consumers_slot (slots : outer.slots = [x.slot outs phase tr]) (place : Nat) :
    outer.consumers place = if place = 0 then [(0, 0)] else [] := by
  unfold Engine.consumers
  rw [slots]
  by_cases hzero : place = 0
  · subst hzero
    rfl
  · have hother : ((0 : Nat) == place) = false := by simpa using Ne.symm hzero
    rw [if_neg hzero]
    simp only [slot, List.zipIdx_cons, List.zipIdx_nil, List.flatMap_cons, List.flatMap_nil,
      List.filter_cons, hother, List.filter_nil, List.map_nil, List.append_nil, Bool.false_eq_true,
      if_false]

/-- A token that is put into a place at an end completes the net. -/
theorem visit_completed {before : List Event} {s : Supply} {tr' : Transition} {target : Nat}
    {stop : PlaceSpec} (slots : outer.slots = [x.slot outs phase tr])
    (running : outer.status = .running) (place : x.places[target + 1]? = some stop)
    (isEnd : stop.isTerminal = true) (fuel : Nat) :
    (outer.visited 0 ⟨(x.reaction outs before).put (target + 1) t, tr', s, .ok ()⟩).andThen
        (Engine.drive (fuel + 1)) [] =
      some ⟨x.finished outs phase tr' outer target stop t, s, before ++ [.completed stop.id t],
        .ok ()⟩ := by
  have hstep : outer.withReacted 0 ⟨(x.reaction outs before).put (target + 1) t, tr', s, .ok ()⟩ =
      { outer with
        holdings := (x.places.map Holding.new).modify (target + 1) (·.add t)
        slots := [x.slot outs phase tr'] } := by
    unfold Engine.withReacted
    rw [slots]
    rfl
  have hplace : ((x.places.map Holding.new).modify (target + 1) (·.add t))[target + 1]? =
      some ((Holding.new stop).add t) := by
    simp [place]
  have hproduced : ((x.reaction outs before).put (target + 1) t).produced = [(target + 1, t)] := rfl
  have hevents : ((x.reaction outs before).put (target + 1) t).events = before := rfl
  have hterminal : ((Holding.new stop).add t).isTerminal = true := isEnd
  have hid : ((Holding.new stop).add t).place.id = stop.id := rfl
  unfold Engine.visited
  rw [hstep, hproduced, hevents]
  simp only [Engine.acceptAll, Engine.accept, hplace, hterminal, hid, running, decide_true,
    Bool.and_true, if_true, Engine.notices]
  rw [consumers_slot rfl, if_neg (Nat.succ_ne_zero target)]
  simp only [Engine.Visit.andThen, List.map_nil, List.append_nil, Engine.drive, Option.map_some,
    Run.after]
  rfl

/-- An end of the net within has its place in the net around. -/
theorem Suits.leads (suits : x.Suits w) (sound : w.flaws = []) (leads : x.Leads outs)
    {place : PlaceSpec} (hplace : place ∈ w.terminals) :
    ∃ i stop target, w.terminals[i]? = some place ∧ (x.plan w).terminals[i]? = some stop ∧
      (nest w).outputs.output? place.id = some i ∧ outs[i]? = some (target + 1) ∧
      x.places[target + 1]? = some stop ∧ stop.isTerminal = true := by
  obtain ⟨i, hi⟩ := List.mem_iff_getElem?.1 hplace
  have hlt : i < x.ends.length := by
    rw [suits.length]
    exact (List.getElem?_eq_some_iff.1 hi).1
  have hstop := List.getElem?_eq_getElem hlt
  obtain ⟨target, htarget, hat⟩ := forall₂_left_at (List.Forall₂.flip leads) hstop
  cases target with
  | zero =>
    have hrole : Role.start = Role.terminal := congrArg PlaceSpec.role (Option.some.inj hat)
    cases hrole
  | succ target =>
    have hterminals : (x.plan w).terminals[i]? = some (terminal x.ends[i]) := by
      rw [terminals_plan, List.getElem?_map, hstop]
      rfl
    exact ⟨i, _, target, hi, hterminals, OutputMap.output?_of_empty (Plan.distinct_terminals sound) hi,
      htarget, hat, rfl⟩

/-- The net around follows a net within that comes to a stop. -/
theorem Suits.follows (suits : x.Suits w) (sound : w.flaws = []) (leads : x.Leads outs)
    (slots : outer.slots = [x.slot outs phase tr]) (running : outer.status = .running)
    (unended : outer.completion = none) (unhalted : outer.haltedBy = none) {run : Run}
    (stops : run.Stops w) (before : List Event) :
    ∃ run', x.Follows w t before run run' ∧ ∀ next fuel,
      (((nest w).settle next t run (x.reaction outs before)).bind fun reacted =>
        (outer.visited 0 reacted).andThen (Engine.drive (fuel + 1)) []) = some run' := by
  -- As long as the net within has not ended, the net around only hands its events on.
  have hquiet : (∀ event ∈ run.events, ¬ event.Final) →
      x.Holds w t run.engine
        (heeding (x.shell outs phase (.busy (nest w) t run.engine) outer) run.result) →
      ∃ run', x.Follows w t before run run' ∧ ∀ next fuel,
        (((nest w).settle next t run (x.reaction outs before)).bind fun reacted =>
          (outer.visited 0 reacted).andThen (Engine.drive (fuel + 1)) []) = some run' := by
    intro quiet hholds
    refine ⟨⟨heeding (x.shell outs phase (.busy (nest w) t run.engine) outer) run.result, run.supply,
      before ++ run.events.filterMap (·.within x.step), run.result⟩,
      ⟨rfl, rfl, ⟨_, rfl, tells_quiet quiet⟩, .inl hholds⟩, fun next fuel => ?_⟩
    rw [settle_quiet quiet, Option.bind_some]
    exact visit_quiet slots run.result fuel
  cases stops with
  | rests quiet completion spared status haltedBy =>
    have hholds : x.Holds w t run.engine
        (x.shell outs phase (.busy (nest w) t run.engine) outer) :=
      ⟨⟨outs, phase, leads, rfl⟩, rfl, running.trans status.symm, unhalted.trans haltedBy.symm,
        completion, unended, .inl status⟩
    apply hquiet quiet
    cases hresult : run.result with
    | ok => exact hholds
    | error f =>
      have hspared : ¬ f.halts = true := by
        rw [spared f hresult]
        exact Bool.false_ne_true
      show x.Holds w t run.engine (Engine.halt _ f)
      rw [Engine.halt, if_neg hspared]
      exact hholds
  | @halts quiet completion f result halts status haltedBy =>
    apply hquiet quiet
    rw [result]
    show x.Holds w t run.engine (Engine.halt _ f)
    rw [Engine.halt, if_pos halts, if_pos (.inl running)]
    exact ⟨⟨outs, phase, leads, rfl⟩, rfl, status.symm, haltedBy.symm, completion, unended,
      .inr (.inr status)⟩
  | @completes place u events completion result status haltedBy =>
    obtain ⟨front, terminal, hterminal, rfl, hevents, hfront⟩ := events
    obtain ⟨i, stop, target, hinside, houtside, hmapped, hleads, hplace, hend⟩ :=
      suits.leads sound leads hterminal
    have hended : x.Ended w t run.engine (x.finished outs phase (.idle (nest w)) outer target stop t) :=
      ⟨status, rfl, unhalted.trans haltedBy.symm, i, terminal, stop, u, hinside, houtside,
        completion, rfl⟩
    have htells : List.Forall₂ (x.Tells w t) run.events
        (front.filterMap (·.within x.step) ++ [.completed stop.id t]) := by
      rw [hevents]
      exact List.rel_append (tells_quiet hfront) (.cons (.completed u hinside houtside) .nil)
    refine ⟨⟨x.finished outs phase (.idle (nest w)) outer target stop t, run.supply,
      before ++ front.filterMap (·.within x.step) ++ [.completed stop.id t], .ok ()⟩,
      ⟨rfl, result.symm, ⟨_, List.append_assoc _ _ _, htells⟩, .inr hended⟩, fun next fuel => ?_⟩
    rw [settle_completed hevents hfront result hmapped hleads, Option.bind_some]
    exact visit_completed slots running hplace hend fuel

theorem activate_slots (slots : outer.slots = [x.slot outs phase tr]) :
    outer.activate.slots = [x.slot outs phase.activate tr] := by
  unfold Engine.activate
  rw [slots]
  rfl

theorem reaction_eq (holdings : outer.holdings = x.places.map Holding.new) :
    outer.reaction (x.slot outs phase tr) = x.reaction outs [] := by
  unfold Engine.reaction
  rw [holdings]
  rfl

theorem held_eq (holdings : outer.holdings = x.places.map Holding.new) : outer.held = [] := by
  unfold Engine.held
  rw [holdings]
  refine List.flatMap_eq_nil_iff.2 fun entry hentry => ?_
  obtain ⟨hold, place⟩ := entry
  have hmem := List.mem_of_getElem? (List.mem_zipIdx_iff_getElem?.1 hentry)
  obtain ⟨spec, -, rfl⟩ := List.mem_map.1 hmem
  rfl

/-- When the only step of a net has gone on, nothing else is left to do. -/
theorem proceed_conclude (again : Engine → Supply → Option Run) (drive : Drive) (fuel : Nat)
    (v : Engine.Visit) :
    (v.proceed again drive fuel []).bind (Engine.Visit.conclude drive []) = v.andThen drive [] := by
  obtain ⟨e, notices, s, events, result⟩ := v
  cases result with
  | error f => rfl
  | ok =>
    simp only [Engine.Visit.proceed, Engine.resumeSlots, Option.map_some, Option.bind_some,
      Engine.Visit.conclude, Engine.acceptAll, Engine.Visit.andThen, List.append_nil, List.nil_append]

variable {fuel : Nat} {s : Supply} {path : List String} {token : TokenId} {output : Nat}

/-- A net passes a report for its step on to the net within. -/
theorem complete_through (slots : outer.slots = [x.slot outs phase (.busy (nest w) t inner)])
    (holdings : outer.holdings = x.places.map Holding.new) (running : outer.status = .running)
    (leads : path ≠ []) :
    outer.answer fuel s (.complete (x.step :: path) token output) =
      (inner.answer fuel s (.complete path token output)).bind fun run =>
        ((nest w).settle ((nest w).launch (Engine.drive fuel) fuel) t run (x.reaction outs [])).bind
          fun reacted => (outer.visited 0 reacted).andThen (Engine.drive fuel) [] := by
  obtain ⟨next, more, rfl⟩ := List.exists_cons_of_ne_nil leads
  have hindex : Engine.slotIndex? outer.slots x.step = some 0 := by
    simp [Engine.slotIndex?, slots, slot]
  have hslot : outer.slots[0]? = some (x.slot outs phase (.busy (nest w) t inner)) := by
    rw [slots]
    rfl
  have hinner := Engine.complete_inner fuel next more running hindex hslot rfl token output s
  rw [reaction_eq holdings, Option.bind_assoc] at hinner
  exact hinner

/-- A net that goes on lets the net within go on. -/
theorem resume_through (slots : outer.slots = [x.slot outs phase (.busy (nest w) t inner)])
    (holdings : outer.holdings = x.places.map Holding.new) (paused : outer.status = .paused) :
    outer.answer (fuel + 1) s .resume =
      (inner.answer fuel s .resume).bind fun run =>
        ((nest w).settle ((nest w).launch (Engine.drive fuel) fuel) t run (x.reaction outs [])).bind
          fun reacted => (Engine.visited { outer.activate with status := .running } 0 reacted).andThen
            (Engine.drive fuel) [] := by
  have hwoken := activate_slots slots
  have hslot : ({ outer.activate with status := .running } : Engine).slots[0]? =
      some (x.slot outs phase.activate (.busy (nest w) t inner)) := by
    rw [hwoken]
    rfl
  have hreaction : Engine.reaction { outer.activate with status := .running }
      (x.slot outs phase.activate (.busy (nest w) t inner)) = x.reaction outs [] :=
    reaction_eq holdings
  have hlength : outer.slots.length = 1 := by rw [slots, List.length_singleton]
  show Engine.resume (fuel + 1) outer s = (Engine.resume fuel inner s).bind _
  rw [Engine.resume_step fuel paused, hlength, held_eq holdings]
  have hrange : List.range 1 = [0] := rfl
  rw [hrange, Engine.resumeSlots_step _ _ _ rfl hslot, hreaction]
  simp only [Engine.goOn, slot]
  cases Engine.resume fuel inner s with
  | none => rfl
  | some run =>
    dsimp only [Option.bind_some]
    rw [Option.bind_assoc]
    simp only [proceed_conclude]

/-- A new net of a wrapped plan has the one step, in front of which the start place is. -/
theorem Suits.fresh (suits : x.Suits w) (built : Engine.Built .standard (x.plan w) outer) :
    outer.holdings = x.places.map Holding.new ∧
    ∃ outs, x.Leads outs ∧ outer.slots = [x.slot outs .initialized (.idle (nest w))] := by
  have hplaces : outer.holdings = x.places.map Holding.new := built.holdings
  refine ⟨hplaces, ?_⟩
  have hsteps := built.slots
  obtain ⟨slot, rest, hfit, hrest, hslots⟩ := List.forall₂_cons_left_iff.1 hsteps
  obtain rfl := List.forall₂_nil_left_iff.1 hrest
  obtain ⟨inputs, outputs, fitting, hin, hout, hfitting, rfl⟩ := Engine.fitSlot_ok.1 hfit
  obtain rfl := Except.ok.inj hfitting
  have hfirst : Engine.placeIndex? outer.holdings x.start.id = some 0 := by
    rw [hplaces]
    simp [Engine.placeIndex?, places, entry, Holding.new, List.findIdx?_cons]
  have hinputs : Engine.placeIndices outer.holdings [x.start.id] = .ok [0] := by
    simp only [Engine.placeIndices, hfirst, Except.map]
  obtain rfl := Except.ok.inj (hinputs.symm.trans hin)
  refine ⟨outputs, ?_, hslots⟩
  have hfound := List.forall₂_map_left_iff.1 (Engine.placeIndices_ok hout)
  refine List.forall₂_iff_get.2 ⟨hfound.length_eq, fun i hi ho => ?_⟩
  -- Places are found by their ids, and these are distinct.
  have hindex := hfound.get hi ho
  rw [hplaces] at hindex
  obtain ⟨hlt, hid, -⟩ := List.findIdx?_eq_some_iff_getElem.1 hindex
  rw [List.length_map] at hlt
  rw [List.getElem_map, beq_iff_eq] at hid
  have hsame : x.places[outputs.get ⟨i, ho⟩] = terminal (x.ends.get ⟨i, hi⟩) :=
    List.inj_on_of_nodup_map suits.distinct (List.getElem_mem hlt) (mem_ends (List.get_mem _ _)) hid
  rw [List.getElem?_eq_getElem hlt, hsame]

theorem startPlace_eq (holdings : outer.holdings = x.places.map Holding.new) :
    outer.startPlace = 0 := by
  unfold Engine.startPlace
  rw [holdings]
  rfl

/-- The only token in front of the step is taken in. -/
theorem fire_start (holdings : outer.holdings = (x.places.map Holding.new).modify 0 (·.add t)) :
    (outer.reaction (x.slot outs phase tr)).fire [(0, t)] [] =
      (x.reaction outs [.fired (.ofStep x.step)], .ok true) := by
  unfold Engine.reaction
  rw [holdings]
  simp [Reaction.fire, Reaction.targets, Reaction.holds, Reaction.input?, Reaction.consume,
    Reaction.raise, Holding.remove, Holding.holds, Holding.new, Holding.add, Holding.swapRemove,
    Token.same, places, slot, reaction]

/-- A nested net that begins is started. -/
theorem begin_eq {child : Engine} (created : child.status = .created) (fuel : Nat)
    (next : Reaction → Token → Supply → Option Reacted) (r : Reaction) (start : Token) :
    (nest w).begin (Engine.drive fuel) next r t child start s =
      (child.startWith fuel start s).bind fun run => (nest w).settle next t run r := by
  unfold Nest.begin Engine.startWith
  rw [Engine.enter_created created]

def startToken (t : Token) (s : Supply) : Token := ⟨s.draw s.used, t.effectivePayload, none⟩

/-- The token that a net starts with is noticed by its step. -/
theorem accept_start (slots : outer.slots = [x.slot outs phase tr])
    (holdings : outer.holdings = (x.places.map Holding.new).modify 0 (·.add t)) :
    outer.acceptAll [(0, t)] = (outer, [⟨0, 0, t⟩], []) := by
  have hnotice : outer.notices 0 t = [⟨0, 0, t⟩] := by
    unfold Engine.notices
    rw [consumers_slot slots, if_pos rfl]
    rfl
  have hfirst : outer.holdings[0]? = some ((Holding.new x.entry).add t) := by
    rw [holdings]
    rfl
  have hplain : ((Holding.new x.entry).add t).isTerminal = false := rfl
  simp only [Engine.acceptAll, Engine.accept, hfirst, hplain, Bool.false_and, Bool.false_eq_true,
    if_false, hnotice, List.append_nil]

/-- The step that notices the token starts the net within. -/
theorem arrive_start (holdings : outer.holdings = (x.places.map Holding.new).modify 0 (·.add t))
    (build : Engine.build .standard w = .ok inner) (fuel : Nat) :
    (Transition.idle (nest w)).arrive (Engine.drive (fuel + 1)) (fuel + 1)
        (outer.reaction (x.slot outs phase tr)) 0 t s =
      (inner.startWith (fuel + 1) (startToken t s) (s.skip 1)).bind fun run =>
        (nest w).settle ((nest w).launch (Engine.drive (fuel + 1)) fuel) t run
          (x.reaction outs [.fired (.ofStep x.step)]) := by
  have hholds : (outer.reaction (x.slot outs phase tr)).holds 0 t = true := by
    unfold Engine.reaction
    rw [holdings]
    simp [Reaction.holds, Reaction.input?, Holding.holds, Holding.new, Holding.add, Token.same, places,
      slot]
  have hlaunch : (nest w).launch (Engine.drive (fuel + 1)) (fuel + 1)
      (outer.reaction (x.slot outs phase tr)) t s =
      (nest w).begin (Engine.drive (fuel + 1)) ((nest w).launch (Engine.drive (fuel + 1)) fuel)
        (x.reaction outs [.fired (.ofStep x.step)]) t inner (startToken t s) (s.skip 1) :=
    (nest w).launch_begin (fire_start holdings) build s
  rw [← begin_eq (Engine.built_of_build build).status, ← hlaunch]
  unfold Transition.arrive
  exact if_pos hholds

/-- A net that is started starts the net within. -/
theorem Suits.start_through (suits : x.Suits w)
    (built : Engine.Built .standard (x.plan w) outer) {inner : Engine}
    (build : Engine.build .standard w = .ok inner)
    (slots : outer.slots = [x.slot outs .initialized (.idle (nest w))]) :
    outer.answer (fuel + 2) s (.start t) =
      (inner.answer (fuel + 1) (s.skip 1) (.start (startToken t s))).bind
        fun run => ((nest w).settle ((nest w).launch (Engine.drive (fuel + 1)) fuel) t run
          (x.reaction outs [.fired (.ofStep x.step)])).bind fun reacted =>
            ((outer.entered t).visited 0 reacted).andThen (Engine.drive (fuel + 1)) [] := by
  obtain ⟨hplaces, -⟩ := suits.fresh built
  have hstart := startPlace_eq hplaces
  have hslots : (outer.entered t).slots = [x.slot outs .active (.idle (nest w))] :=
    activate_slots slots
  have hholdings : (outer.entered t).holdings = (x.places.map Holding.new).modify 0 (·.add t) := by
    unfold Engine.entered
    rw [hstart, hplaces]
  have hfirst : (outer.entered t).slots[0]? = some (x.slot outs .active (.idle (nest w))) := by
    rw [hslots]
    rfl
  show Engine.startWith (fuel + 2) outer t s = _
  unfold Engine.startWith
  rw [Engine.enter_created built.status, hstart, accept_start hslots hholdings]
  dsimp only
  rw [Engine.drive_step (fuel + 1) rfl hfirst rfl]
  show ((Transition.arrive _ _ (Transition.idle (nest w)) _ 0 t s).bind _).map _ = _
  rw [arrive_start hholdings build, Option.bind_assoc]
  exact Option.map_id'

variable {run run' : Run} {ask : Ask}

theorem Around.status (h : x.Around w t inner outer) : outer.status = inner.status := by
  rcases h with h | h
  · exact h.status
  · exact h.outside.trans h.inside.symm

/-- A call that suits neither the net within nor the net around. -/
theorem Around.refuses (h : x.Around w t inner outer) (call call' : Engine.Call)
    (expects : call'.expects = call.expects) (request : call'.request = call.request)
    (unexpected : inner.status ≠ call.expects) (hrun : inner.answer fuel s call = some run) :
    ∃ run', x.Follows w t [] run run' ∧ outer.answer (fuel + 1) s call' = some run' := by
  obtain rfl := Engine.refused_of_unexpected unexpected hrun
  have hother : outer.status ≠ call'.expects := by
    rw [h.status, expects]
    exact unexpected
  refine ⟨⟨outer, s, [], .error (.wrongState call.request inner.status)⟩,
    ⟨rfl, rfl, ⟨[], rfl, .nil⟩, h⟩, ?_⟩
  rcases Engine.answer_unexpected hother (fuel + 1) s with ⟨hzero, -⟩ | hrefused
  · cases hzero
  · rw [hrefused, request, h.status]

theorem pause_live {next : Status} (h : inner.status.paused? = some next) (now : Timestamp) :
    (inner.pause now).1.status = next ∧ (inner.pause now).1.completion = inner.completion ∧
      (inner.pause now).1.haltedBy = inner.haltedBy := by
  obtain ⟨plan, fingerprint, status, holdings, slots, completion, haltedBy⟩ := inner
  rw [Engine.pause, h]
  exact ⟨rfl, rfl, rfl⟩

/-- A net pauses the net within. -/
theorem pause_through {next : Status}
    (slots : outer.slots = [x.slot outs phase (.busy (nest w) t inner)])
    (h : outer.status.paused? = some next) (now : Timestamp) :
    (outer.pause now).1 = { outer with
      status := next
      slots := [x.slot outs phase.suspend (.busy (nest w) t (inner.pause now).1)] } ∧
    discard (outer.pause now).2 = discard (inner.pause now).2 := by
  obtain ⟨plan, fingerprint, status, holdings, slots', completion, haltedBy⟩ := outer
  obtain rfl : slots' = _ := slots
  rw [Engine.pause, h]
  dsimp only
  unfold slot Slot.captureAll Transition.capture
  generalize inner.pause now = paused
  obtain ⟨inner', f | snapshot⟩ := paused
  · exact ⟨rfl, rfl⟩
  · exact ⟨rfl, rfl⟩

theorem Around.follows_pause (h : x.Around w t inner outer) (now : Timestamp) :
    x.Follows w t [] (inner.paused now s) (outer.paused now s) := by
  rcases h with h | h
  · obtain ⟨next, hnext, hlive⟩ : ∃ next, inner.status.paused? = some next ∧
        (next = .paused ∨ next = .halted) := by
      rcases h.live with hstatus | hstatus | hstatus <;> rw [hstatus]
      · exact ⟨.paused, rfl, .inl rfl⟩
      · exact ⟨.paused, rfl, .inl rfl⟩
      · exact ⟨.halted, rfl, .inr rfl⟩
    have houter : outer.status.paused? = some next := by rw [h.status, hnext]
    obtain ⟨outs, phase, hleads, hslots⟩ := h.slots
    obtain ⟨hengine, hresult⟩ := pause_through hslots houter now
    obtain ⟨hstatus, hcompletion, hby⟩ := pause_live hnext now
    refine ⟨rfl, hresult, ⟨[], rfl, .nil⟩, .inl ?_⟩
    show x.Holds w t (inner.pause now).1 (outer.pause now).1
    rw [hengine]
    refine ⟨⟨outs, phase.suspend, hleads, rfl⟩, h.holdings, hstatus.symm, h.haltedBy.trans hby.symm,
      hcompletion.trans h.inside, h.outside, .inr ?_⟩
    rw [hstatus]
    exact hlive
  · have hinside := Engine.pause_refused (e := inner) (by rw [h.inside]; rfl) now
    have houtside := Engine.pause_refused (e := outer) (by rw [h.outside]; rfl) now
    unfold Engine.paused
    rw [hinside, houtside, h.inside, h.outside]
    exact ⟨rfl, rfl, ⟨[], rfl, .nil⟩, .inr h⟩

/-- What is asked of the net around is answered by the net within, if that answers. -/
theorem Around.follows_met (h : x.Around w t inner outer) (suits : x.Suits w) (sound : w.flaws = [])
    (steady : inner.Steady .standard w) (later : ask.Later) (hrun : inner.met fuel s ask = some run) :
    ∃ run', x.Follows w t [] run run' ∧ outer.met (fuel + 1) s (ask.within x.step) = some run' := by
  cases ask with
  | pause now =>
    obtain rfl := Option.some.inj hrun
    exact ⟨outer.paused now s, h.follows_pause now, rfl⟩
  | call call =>
    by_cases hexpected : inner.status = call.expects
    swap
    · cases call with
      | start t => cases later
      | complete path token output =>
        exact h.refuses (.complete path token output) (.complete (x.step :: path) token output) rfl rfl
          hexpected hrun
      | resume => exact h.refuses .resume .resume rfl rfl hexpected hrun
    have hstops := steady.stops Fitter.standard_regular hexpected hrun
    rcases h with h | h
    swap
    · rw [h.inside] at hexpected
      cases call <;> cases hexpected
    obtain ⟨outs, phase, hleads, hslots⟩ := h.slots
    cases call with
    | start t => cases later
    | complete path token output =>
      have hunhalted := h.haltedBy.trans (steady.running hexpected).here.haltedBy
      have hrunning : outer.status = .running := h.status.trans hexpected
      obtain ⟨run', hfollows, hanswer⟩ :=
        suits.follows sound hleads hslots hrunning h.outside hunhalted hstops []
      refine ⟨run', hfollows, ?_⟩
      show outer.answer (fuel + 1) s (.complete (x.step :: path) token output) = some run'
      have hinner : inner.answer (fuel + 1) s (.complete path token output) = some run :=
        Engine.answer_mono (Nat.le_succ fuel) hrun
      rw [complete_through hslots h.holdings hrunning later, hinner, Option.bind_some]
      exact hanswer _ fuel
    | resume =>
      cases fuel with
      | zero => cases hrun
      | succ fuel =>
        have hunhalted := h.haltedBy.trans (steady.paused hexpected).here.haltedBy
        have hwoken : ({ outer.activate with status := .running } : Engine).slots =
            [x.slot outs phase.activate (.busy (nest w) t inner)] := activate_slots hslots
        obtain ⟨run', hfollows, hanswer⟩ :=
          suits.follows sound hleads hwoken rfl h.outside hunhalted hstops []
        refine ⟨run', hfollows, ?_⟩
        show outer.answer (fuel + 1 + 1) s .resume = some run'
        have hinner : inner.answer (fuel + 1) s .resume = some run := hrun
        rw [resume_through hslots h.holdings (h.status.trans hexpected), hinner, Option.bind_some]
        exact hanswer _ fuel

/-- The net within answers, if the net around does. -/
theorem Around.answers (h : x.Around w t inner outer) (later : ask.Later)
    (hrun : outer.met fuel s (ask.within x.step) = some run') :
    ∃ run, inner.met (fuel + 1) s ask = some run := by
  cases ask with
  | pause now => exact ⟨_, rfl⟩
  | call call =>
    by_cases hexpected : inner.status = call.expects
    swap
    · rcases Engine.answer_unexpected hexpected (fuel + 1) s with ⟨hzero, -⟩ | hrefused
      · cases hzero
      · exact ⟨_, hrefused⟩
    rcases h with h | h
    swap
    · rw [h.inside] at hexpected
      cases call <;> cases hexpected
    obtain ⟨outs, phase, hleads, hslots⟩ := h.slots
    cases call with
    | start t => cases later
    | complete path token output =>
      have houter : outer.answer fuel s (.complete (x.step :: path) token output) = some run' := hrun
      rw [complete_through hslots h.holdings (h.status.trans hexpected) later] at houter
      obtain ⟨run, hinner, -⟩ := Option.bind_eq_some_iff.1 houter
      exact ⟨run, Engine.answer_mono (Nat.le_succ fuel) hinner⟩
    | resume =>
      cases fuel with
      | zero => cases hrun
      | succ fuel =>
        have houter : outer.answer (fuel + 1) s .resume = some run' := hrun
        rw [resume_through hslots h.holdings (h.status.trans hexpected)] at houter
        obtain ⟨run, hinner, -⟩ := Option.bind_eq_some_iff.1 houter
        exact ⟨run, Engine.answer_mono (by omega) hinner⟩

/-- A started net follows the net within, when the step has fired. -/
theorem Suits.follows_start (suits : x.Suits w) (sound : w.flaws = [])
    (built : Engine.Built .standard (x.plan w) outer) (build : Engine.build .standard w = .ok inner)
    (hrun : inner.answer fuel (s.skip 1) (.start (startToken t s)) = some run) :
    ∃ run', x.Follows w t [.fired (.ofStep x.step)] run run' ∧
      outer.answer (fuel + 1) s (.start t) = some run' := by
  cases fuel with
  | zero =>
    have hcreated := (Engine.built_of_build build).status
    simp only [Engine.answer, Engine.startWith, Engine.enter_created hcreated, Engine.drive,
      Option.map_none] at hrun
    cases hrun
  | succ fuel =>
    obtain ⟨-, outs, hleads, hslots⟩ := suits.fresh built
    have hentered : (outer.entered t).slots = [x.slot outs .active (.idle (nest w))] :=
      activate_slots hslots
    have hcreated : inner.status = (Engine.Call.start (startToken t s)).expects :=
      (Engine.built_of_build build).status
    have hstops := (Engine.Steady.of_build build).stops Fitter.standard_regular hcreated hrun
    obtain ⟨run', hfollows, hanswer⟩ := suits.follows sound hleads hentered rfl built.completion
      built.haltedBy hstops [.fired (.ofStep x.step)]
    refine ⟨run', hfollows, ?_⟩
    rw [suits.start_through built build hslots, hrun, Option.bind_some]
    exact hanswer _ fuel

theorem Suits.starts (suits : x.Suits w) (built : Engine.Built .standard (x.plan w) outer)
    (build : Engine.build .standard w = .ok inner)
    (hrun : outer.answer fuel s (.start t) = some run') :
    ∃ run, inner.answer (fuel + 1) (s.skip 1) (.start (startToken t s)) = some run := by
  obtain ⟨-, outs, -, hslots⟩ := suits.fresh built
  have hmore : outer.answer (fuel + 2) s (.start t) = some run' :=
    Engine.answer_mono (by omega) hrun
  rw [suits.start_through built build hslots] at hmore
  obtain ⟨run, hinner, -⟩ := Option.bind_eq_some_iff.1 hmore
  exact ⟨run, hinner⟩

end Wrapping
end RecipeNet
