import RecipeNet.Proofs.Conclusion
import RecipeNet.Proofs.Net.Awaiting
import RecipeNet.Proofs.Safety

/-!
Activities and their addresses. Whoever has followed a running net from the beginning has
been told of every activity that it waits for, with the address of the task; and a report
is taken by the net exactly when its address leads to a task that holds the token and has
the output. Any other report is refused and changes nothing.
-/

namespace RecipeNet

inductive Fault.Caller : Fault → Prop
  | wrongState (request : Request) (status : Status) : Caller (.wrongState request status)
  | unknownStep (id : String) : Caller (.unknownStep id)
  | notAwaiting (step : String) (token : TokenId) : Caller (.notAwaiting step token)
  | noSuchOutput (step : String) (index available : Nat) : Caller (.noSuchOutput step index available)

theorem Fault.Caller.spares {f : Fault} (h : f.Caller) : f.halts = false := by
  cases h <;> rfl

theorem Fault.OfCaller.caller {f : Fault} {output : Nat} (h : f.OfCaller output) : f.Caller := by
  cases h with
  | wrongState status => exact .wrongState _ status
  | unknownStep id => exact .unknownStep id
  | notAwaiting step token => exact .notAwaiting step token
  | noSuchOutput step available => exact .noSuchOutput step output available

namespace Engine

/-- An address leads through running nets to a task that holds a token with some identity
and has some output. -/
def Takes (e : Engine) (path : List String) (token : TokenId) (output : Nat) : Prop :=
  ∃ activity t outs, e.Awaits path activity t outs ∧ t.id = token ∧ output < outs

variable {fitter : Fitter} {plan : Plan} {e : Engine} {events : List Event} {fuel : Nat}
  {s : Supply} {head : String} {rest : List String} {token : TokenId} {output i : Nat} {slot : Slot}

theorem not_takes_nil : ¬ e.Takes [] token output := by
  rintro ⟨activity, t, outs, ⟨slot, -, ha⟩, -⟩
  cases ha

/-- An address leads through the step that it names first. -/
theorem Takes.through (distinct : (e.slots.map (·.step)).Nodup)
    (h : e.Takes (head :: rest) token output) (hslot : slot ∈ e.slots) (hstep : slot.step = head) :
    ∃ activity t outs, slot.Awaits (head :: rest) activity t outs ∧ t.id = token ∧
      output < outs := by
  obtain ⟨activity, t, outs, ⟨other, hother, ha⟩, hid, hlt⟩ := h
  have hsame : other.step = slot.step := by
    rw [hstep]
    cases ha <;> rfl
  obtain rfl := List.inj_on_of_nodup_map distinct hother hslot hsame
  exact ⟨activity, t, outs, ha, hid, hlt⟩

/-- A task takes the tokens that it holds. -/
theorem takes_task (distinct : (e.slots.map (·.step)).Nodup) (hslot : slot ∈ e.slots)
    {activity : String} {held : List Token} (task : slot.transition = .task activity held) :
    e.Takes [slot.step] token output ↔
      (∃ t ∈ held, t.id = token) ∧ output < slot.outputs.length := by
  constructor
  · intro htakes
    obtain ⟨_, t, outs, ha, hid, hlt⟩ := htakes.through distinct hslot rfl
    rcases ha.cases_transition with ⟨held', htask, hheld, -, rfl⟩ | ⟨_, _, _, _, hbusy, -⟩
    · cases task.symm.trans htask
      exact ⟨⟨t, hheld, hid⟩, hlt⟩
    · cases task.symm.trans hbusy
  · rintro ⟨⟨t, hheld, hid⟩, hlt⟩
    exact ⟨activity, t, _, ⟨slot, hslot, .task task hheld⟩, hid, hlt⟩

/-- A step that runs a nested plan takes what the nested net takes. -/
theorem takes_within (distinct : (e.slots.map (·.step)).Nodup) (hslot : slot ∈ e.slots)
    {nest : Nest} {u : Token} {child : Engine} (busy : slot.transition = .busy nest u child) :
    e.Takes (slot.step :: rest) token output ↔ child.Takes rest token output := by
  constructor
  · intro htakes
    obtain ⟨activity, t, outs, ha, hid, hlt⟩ := htakes.through distinct hslot rfl
    rcases ha.cases_transition with ⟨_, htask, -⟩ | ⟨_, _, child', path, hbusy, hpath, hin⟩
    · cases busy.symm.trans htask
    · cases busy.symm.trans hbusy
      cases hpath
      exact ⟨activity, t, outs, hin, hid, hlt⟩
  · rintro ⟨activity, t, outs, ⟨inner, hinner, ha⟩, hid, hlt⟩
    exact ⟨activity, t, outs, ⟨slot, hslot, .nested busy hinner ha⟩, hid, hlt⟩

theorem takes_step (h : e.Takes (head :: rest) token output) : ∃ slot ∈ e.slots, slot.step = head := by
  obtain ⟨activity, t, outs, ⟨slot, hs, ha⟩, -⟩ := h
  exact ⟨slot, hs, by cases ha <;> rfl⟩

/-- A task releases a token that it holds to an output that it has. -/
theorem release_ok {activity : String} {held : List Token} {r : Reaction}
    (isHeld : ∃ t ∈ held, t.id = token) (isOutput : output < r.outputs.length) :
    (release held activity r token output s).result = .ok () := by
  obtain ⟨t, ht, hid⟩ := isHeld
  have hsome : (held.findIdx? (·.id == token)).isSome := by
    rw [List.findIdx?_isSome, List.any_eq_true]
    exact ⟨t, ht, by simpa using hid⟩
  obtain ⟨j, hj⟩ := Option.isSome_iff_exists.1 hsome
  obtain ⟨hlt, -⟩ := List.findIdx?_eq_some_iff_getElem.1 hj
  have hplace := List.getElem?_eq_getElem isOutput
  simp only [release, hj, List.getElem?_eq_getElem hlt, Reaction.produce, Reaction.outputPlace, hplace,
    Except.map]

/-- A report whose address ends at a task is for the task to take. -/
theorem complete_task (running : e.status = .running) (hindex : slotIndex? e.slots head = some i)
    (hslot : e.slots[i]? = some slot) {activity : String} {held : List Token}
    (task : slot.transition = .task activity held) (fuel : Nat) (token : TokenId) (output : Nat)
    (s : Supply) :
    complete fuel [head] e token output s =
      (e.visited i (release held activity (e.reaction slot) token output s)).andThen (drive fuel)
        [] := by
  unfold complete
  rw [if_neg (not_not.2 running)]
  simp only [hindex, hslot, task]

/-- What becomes of a report: its address leads to a task that takes it, and then nothing but
a fault of the net can be answered, or it is refused and changes nothing. -/
inductive Received (fuel : Nat) (path : List String) (token : TokenId) (output : Nat) (sc : Scene) :
    Prop
  | taken (takes : sc.engine.Takes path token output)
      (proper : ∀ run, complete fuel path sc.engine token output sc.supply = some run →
        run.Proper sc)
  | refused (astray : ¬ sc.engine.Takes path token output) {f : Fault} (caller : f.OfCaller output)
      (answer : complete fuel path sc.engine token output sc.supply =
        some ⟨sc.engine, sc.supply, [], .error f⟩)

section

variable {sc : Scene}

/-- A task takes a report or refuses it. -/
theorem received_task (hf : fitter.Regular) (hsound : sc.Sound fitter) (hawake : sc.engine.Awake)
    (hindex : slotIndex? sc.engine.slots slot.step = some i) (hslot : sc.engine.slots[i]? = some slot)
    {activity : String} {held : List Token} (task : slot.transition = .task activity held)
    (fuel : Nat) (token : TokenId) (output : Nat) :
    Received fuel [slot.step] token output sc := by
  have hw : Station.Ready fitter ⟨sc, i, slot, [], [], []⟩ := ⟨hsound, hslot⟩
  have hrun := complete_task hawake.here.running hindex hslot task fuel token output sc.supply
  have htakes : sc.engine.Takes [slot.step] token output ↔
      (∃ t ∈ held, t.id = token) ∧ output < slot.outputs.length :=
    takes_task hsound.fits.distinctSteps (List.mem_of_getElem? hslot) task
  rcases release_cases held activity (sc.engine.reaction slot) token output sc.supply with
    ⟨j, t, place, hheld, hid, hplace, hrelease⟩ | ⟨f, hcaller, hrelease⟩
  · have hlt := (List.getElem?_eq_some_iff.1 hplace).1
    refine .taken (htakes.2 ⟨⟨t, List.mem_of_getElem? hheld, hid⟩, hlt⟩) fun run hanswer => ?_
    rw [hrun, hrelease] at hanswer
    have hfine := hw.fine_released hawake.alert task hheld hplace
    exact (hfine.visited hawake.here.running).andThen hf (drive_proper hf fuel) hsound
      (List.forall_mem_nil _) hanswer
  · refine .refused (fun h => ?_) hcaller ?_
    · obtain ⟨isHeld, isOutput⟩ := htakes.1 h
      have hok : (release held activity (sc.engine.reaction slot) token output sc.supply).result =
          .ok () := release_ok isHeld isOutput
      rw [hrelease] at hok
      cases hok
    · rw [hrun, hrelease, ← task, andThen_refused hslot hcaller.spares]

/-- A step that runs a nested plan takes a report or refuses it as the nested net does. -/
theorem received_within (hf : fitter.Regular) (hsound : sc.Sound fitter) (hawake : sc.engine.Awake)
    (hindex : slotIndex? sc.engine.slots slot.step = some i) (hslot : sc.engine.slots[i]? = some slot)
    {nest : Nest} {u : Token} {child : Engine} (busy : slot.transition = .busy nest u child)
    {next : String} {more : List String}
    (inner : Received fuel (next :: more) token output ⟨child, sc.supply, sc.lore.below slot.step⟩) :
    Received fuel (slot.step :: next :: more) token output sc := by
  have hw : Station.Ready fitter ⟨sc, i, slot, [], [], []⟩ := ⟨hsound, hslot⟩
  have hmem := List.mem_of_getElem? hslot
  have hchild : child.Awake := hawake.child hmem busy
  have hrun := complete_inner fuel next more hawake.here.running hindex hslot busy token output
    sc.supply
  have htakes : sc.engine.Takes (slot.step :: next :: more) token output ↔
      child.Takes (next :: more) token output := takes_within hsound.fits.distinctSteps hmem busy
  cases inner with
  | taken takes proper =>
    refine .taken (htakes.2 takes) fun run hanswer => ?_
    rw [hrun] at hanswer
    obtain ⟨reacted, hsettled, hafter⟩ := Option.bind_eq_some_iff.1 hanswer
    obtain ⟨inner, hinner, hsettle⟩ := Option.bind_eq_some_iff.1 hsettled
    have hd := drive_proper hf fuel
    have hstart := hw.start hawake.alert.setOut
    dsimp only at hstart
    rw [busy] at hstart
    have hfine := hstart.fine_settle hf hw List.not_mem_nil hchild.not_completed
      (proper inner hinner) (fun r' waiting s' lore' hidle hheld hlore hagain =>
        hidle.fine_launch hf hd hw List.not_mem_nil fuel hheld hlore hagain) hsettle
    exact (hfine.visited hawake.here.running).andThen hf hd hsound (List.forall_mem_nil _) hafter
  | refused astray caller answer =>
    refine .refused (fun h => astray (htakes.1 h)) caller ?_
    dsimp only at answer
    rw [hrun, answer]
    simp only [Option.bind_some, Nest.settle, Nest.absorb, Nest.transition]
    rw [← busy, andThen_refused hslot caller.spares]

/-- A report is refused by a step that is neither a task at the end of the address nor runs a
nested plan within which the address leads on. -/
theorem received_elsewhere (hsound : sc.Sound fitter) (running : sc.engine.status = .running)
    (hindex : slotIndex? sc.engine.slots slot.step = some i) (hslot : sc.engine.slots[i]? = some slot)
    (task : ∀ activity held, slot.transition = .task activity held → rest ≠ [])
    (nested : ∀ nest u child, slot.transition = .busy nest u child → rest = []) (fuel : Nat)
    (token : TokenId) (output : Nat) : Received fuel (slot.step :: rest) token output sc := by
  have hastray : ¬ sc.engine.Takes (slot.step :: rest) token output := by
    intro htakes
    obtain ⟨_, t, outs, ha, -⟩ := htakes.through hsound.fits.distinctSteps
      (List.mem_of_getElem? hslot) rfl
    rcases ha.cases_transition with ⟨_, htask, -, hpath, -⟩ | ⟨_, _, child, path, hbusy, hpath, hin⟩
    · exact task _ _ htask (List.cons.inj hpath).2
    · obtain rfl : rest = path := (List.cons.inj hpath).2
      obtain rfl := nested _ _ _ hbusy
      obtain ⟨inner, -, hin⟩ := hin
      cases hin
  obtain ⟨f, hcaller, hrun⟩ : ∃ f : Fault, f.OfCaller output ∧
      complete fuel (slot.step :: rest) sc.engine token output sc.supply =
        (sc.engine.visited i ⟨sc.engine.reaction slot, slot.transition, sc.supply,
          .error f⟩).andThen (drive fuel) [] := by
    unfold complete
    rw [if_neg (not_not.2 running)]
    simp only [hindex, hslot]
    cases htr : slot.transition with
    | task activity held =>
      obtain ⟨next, more, rfl⟩ := List.exists_cons_of_ne_nil (task _ _ htr)
      exact ⟨_, .notAwaiting _ _, rfl⟩
    | busy nest u child =>
      obtain rfl := nested _ _ _ htr
      exact ⟨_, .notAwaiting _ _, rfl⟩
    | idle nest => cases rest <;> exact ⟨_, .notAwaiting _ _, rfl⟩
    | pass | split | join | routed => exact ⟨_, .notAwaiting _ _, rfl⟩
  exact .refused hastray hcaller (hrun.trans (andThen_refused hslot hcaller.spares _ _))

/-- A running net takes a report or refuses it. -/
theorem received (hf : fitter.Regular) (fuel : Nat) (path : List String) (token : TokenId)
    (output : Nat) (hsound : sc.Sound fitter) (hawake : sc.engine.Awake) :
    Received fuel path token output sc := by
  have hrunning := hawake.here.running
  induction path generalizing sc with
  | nil =>
    refine .refused not_takes_nil (.unknownStep "") ?_
    unfold complete
    exact if_neg (not_not.2 hrunning)
  | cons head rest ih =>
    cases hindex : slotIndex? sc.engine.slots head with
    | none =>
      refine .refused (fun htakes => ?_) (.unknownStep head) ?_
      · obtain ⟨slot, hs, hstep⟩ := takes_step htakes
        have hnone := List.findIdx?_eq_none_iff.1 hindex slot hs
        simp [hstep] at hnone
      · unfold complete
        rw [if_neg (not_not.2 hrunning)]
        simp only [hindex]
    | some i =>
      obtain ⟨hlt, -⟩ := List.findIdx?_eq_some_iff_getElem.1 hindex
      obtain ⟨slot, hslot⟩ : ∃ slot, sc.engine.slots[i]? = some slot :=
        ⟨_, List.getElem?_eq_getElem hlt⟩
      obtain rfl := Slot.slotIndex?_some hindex hslot
      have hmem := List.mem_of_getElem? hslot
      -- only a task at the end of the address and a nested net before it are asked
      by_cases htask : rest = [] ∧ ∃ activity held, slot.transition = .task activity held
      · obtain ⟨rfl, activity, held, htask⟩ := htask
        exact received_task hf hsound hawake hindex hslot htask fuel token output
      by_cases hbusy : rest ≠ [] ∧ ∃ nest u child, slot.transition = .busy nest u child
      · obtain ⟨hrest, nest, u, child, hbusy⟩ := hbusy
        obtain ⟨next, more, rfl⟩ := List.exists_cons_of_ne_nil hrest
        have hchild : child.Awake := hawake.child hmem hbusy
        exact received_within hf hsound hawake hindex hslot hbusy
          (ih (hsound.child hmem hbusy) hchild hchild.here.running)
      · exact received_elsewhere hsound hrunning hindex hslot
          (fun _ _ h hnil => htask ⟨hnil, _, _, h⟩)
          (fun _ _ _ h => by_contra fun hrest => hbusy ⟨hrest, _, _, _, h⟩) fuel token output

end

/-- A net that is asked something has told of all that it waits for when it runs then, if it
had told of what it waited for while it ran before. -/
theorem Steady.voiced_answer (hf : fitter.Regular) (h : e.Steady fitter plan)
    (voiced : e.status = .running → e.Voiced events) {call : Call} {run : Run}
    (hrun : e.answer fuel s call = some run) (running : run.engine.status = .running) :
    run.engine.Voiced (events ++ run.events) := by
  rcases h.answer hf hrun with ⟨f, -, rfl⟩ | ⟨hopens, hproper⟩
  · rw [List.append_nil]
    exact voiced running
  have hcourse := hproper.course
  cases call with
  | start t =>
    by_cases hcreated : e.status = .created
    · rw [opened_start hcreated] at hcourse
      obtain ⟨lore, hcourse⟩ := hcourse
      refine hcourse.voiced fun path activity u outs ha => ?_
      exact absurd ha ((built_of_build (h.created hcreated)).not_awaits t)
    · have hother : e.status ≠ (Call.start t).expects := hcreated
      obtain rfl := refused_of_unexpected hother hrun
      rw [List.append_nil]
      exact voiced running
  | complete path token output =>
    obtain ⟨lore, hcourse⟩ := hcourse
    by_cases hrunning : e.status = .running
    · exact hcourse.voiced (voiced hrunning)
    · have hother : e.status ≠ (Call.complete path token output).expects := hrunning
      obtain rfl := refused_of_unexpected hother hrun
      exact absurd running hrunning
  | resume =>
    by_cases hpaused : e.status = .paused
    · have hok : run.result = .ok () := by
        cases hresult : run.result with
        | ok => rfl
        | error f =>
          have hhalted := (hproper.error f hresult).2.1
          cases running.symm.trans hhalted
      have hvoices := resume_voices hf fuel ⟨e, s, e.lore⟩ run (sound_lore h.fits s)
        (h.paused hpaused) hrun hok
      have hopen : run.engine.status ≠ .completed := fun hcompleted => by
        cases running.symm.trans hcompleted
      intro path activity t outs ha
      exact List.mem_append_right _ (hvoices.resolve_left hopen path activity t outs ha)
    · have hother : e.status ≠ Call.resume.expects := hpaused
      obtain rfl := refused_of_unexpected hother hrun
      rw [List.append_nil]
      exact voiced running

/-- Whoever has watched a running net from the beginning knows all that it waits for. -/
theorem Watched.voiced (hf : fitter.Regular) (h : Watched fitter plan events e) :
    e.status = .running → e.Voiced events := by
  induction h with
  | built build =>
    intro running
    cases (built_of_build build).status.symm.trans running
  | @performed before e fuel s op out watched performs ih =>
    have hsteady := watched.reachable.steady hf
    intro running
    cases op with
    | call call =>
      obtain ⟨run, hrun, rfl⟩ := Option.map_eq_some_iff.1 performs
      exact hsteady.voiced_answer hf ih hrun running
    | pause now =>
      obtain rfl := Option.some.inj performs
      dsimp only at running ⊢
      rw [List.append_nil]
      rcases status_pause e now with hsame | ⟨-, hpaused⟩ | ⟨-, hhalted⟩
      · rw [hsame] at running ⊢
        exact ih running
      · cases hpaused.symm.trans running
      · cases hhalted.symm.trans running
    | restore snapshot =>
      obtain rfl := Option.some.inj performs
      dsimp only at running ⊢
      rw [List.append_nil]
      rcases restore_cases e snapshot with ⟨e', hok, hloads⟩ | ⟨f, herror⟩ | ⟨slots, f, herror, -⟩
      · have hasleep := restore_asleep hf (hsteady.created hloads.created) hok
        rw [hok] at running
        cases hasleep.here.paused.symm.trans running
      · rw [herror] at running ⊢
        exact ih running
      · rw [herror] at running
        cases running
    | dispose =>
      obtain rfl := Option.some.inj performs
      cases running

/-- A running net has reported, with its address, every activity that it waits for, and it
takes a report exactly when the address leads to a task that waits with that token and has
that output; any other report it refuses without a change. -/
theorem announced_and_addressable (hf : fitter.Regular) (h : Watched fitter plan events e)
    (running : e.status = .running) :
    (∀ path activity t outs, e.Awaits path activity t outs →
      .started ⟨path⟩ activity t ∈ events) ∧
    ∀ fuel s path token output,
      (e.Takes path token output ↔ ∀ run, e.answer fuel s (.complete path token output) = some run →
        ∀ f : Fault, f.Caller → run.result ≠ .error f) ∧
      (¬ e.Takes path token output → ∃ f : Fault, f.Caller ∧
        e.answer fuel s (.complete path token output) = some ⟨e, s, [], .error f⟩) := by
  refine ⟨h.voiced hf running, fun fuel s path token output => ?_⟩
  have hsteady := h.reachable.steady hf
  rcases received hf fuel path token output (sound_lore hsteady.fits s) (hsteady.running running) with
    ⟨htakes, hproper⟩ | ⟨hleads, hcaller, hrefused⟩
  · refine ⟨⟨fun _ run hrun f hcaller hfault => ?_, fun _ => htakes⟩, absurd htakes⟩
    have hhalts := ((hproper run hrun).error f hfault).1
    rw [hcaller.spares] at hhalts
    cases hhalts
  · refine ⟨⟨fun htakes => absurd htakes hleads, fun hnever => ?_⟩,
      fun _ => ⟨_, hcaller.caller, hrefused⟩⟩
    exact absurd rfl (hnever _ hrefused _ hcaller.caller)

/-- A cook is called for within the order, and it is the cook who has to report, not the
order. -/
theorem dinner_addressed : ∃ (e : Engine) (run : Run) (t : Token), build .standard dinner = .ok e ∧
    e.answer 40 serial (.start job) = some run ∧ run.engine.status = .running ∧
    .started ⟨["order", "cook"]⟩ "cook" t ∈ run.events ∧
    run.engine.Takes ["order", "cook"] t.id 0 ∧
    (∀ resumed, run.engine.answer 40 run.supply (.complete ["order", "cook"] t.id 0) = some resumed →
      ∀ f : Fault, f.Caller → resumed.result ≠ .error f) ∧
    ∃ f : Fault, f.Caller ∧ run.engine.answer 40 run.supply (.complete ["order"] t.id 0) =
      some ⟨run.engine, run.supply, [], .error f⟩ := by
  obtain ⟨e, hbuild⟩ : ∃ e, build .standard dinner = .ok e := ⟨_, rfl⟩
  obtain ⟨run, order, nest, u, child, cook, t, hanswer, hrunning, hslots, hbusy, hinner, htask,
      horder, hcook, houts⟩ : ∃ run order nest u child cook t,
        e.answer 40 serial (.start job) = some run ∧ run.engine.status = .running ∧
        run.engine.slots[0]? = some order ∧ order.transition = .busy nest u child ∧
        child.slots = [cook] ∧ cook.transition = .task "cook" [t] ∧ order.step = "order" ∧
        cook.step = "cook" ∧ cook.outputs.length = 1 := by
    cases hbuild
    exact ⟨_, _, _, _, _, _, _, rfl, rfl, rfl, rfl, rfl, rfl, rfl, rfl, rfl⟩
  have hstarted : e.perform 40 serial (.call (.start job)) = some run.outcome := by
    show (e.answer 40 serial (.start job)).map Run.outcome = some run.outcome
    rw [hanswer, Option.map_some]
  have hwatched : Watched .standard dinner ([] ++ run.outcome.events) run.outcome.engine :=
    .performed (.built hbuild) hstarted
  obtain ⟨hannounced, hverdict⟩ :=
    announced_and_addressable Fitter.standard_regular hwatched hrunning
  have hwaits : run.engine.Awaits ["order", "cook"] "cook" t 1 := by
    have hcooks := Slot.Awaits.task htask (List.mem_singleton_self t)
    rw [hcook, houts] at hcooks
    have hmem : cook ∈ child.slots := hinner ▸ List.mem_singleton_self cook
    exact ⟨order, List.mem_of_getElem? hslots, horder ▸ .nested hbusy hmem hcooks⟩
  have htakes : run.engine.Takes ["order", "cook"] t.id 0 := ⟨_, t, 1, hwaits, rfl, Nat.zero_lt_one⟩
  have hfits : run.engine.Throughout (Fits .standard) :=
    (hwatched.reachable.steady Fitter.standard_regular).fits
  have hleads : ¬ run.engine.Takes ["order"] t.id 0 := by
    intro htakes
    rw [← horder] at htakes
    exact not_takes_nil
      ((takes_within hfits.here.distinctSteps (List.mem_of_getElem? hslots) hbusy).1 htakes)
  exact ⟨e, run, t, hbuild, hanswer, hrunning, hannounced _ _ _ _ hwaits, htakes,
    (hverdict 40 run.supply _ _ _).1.1 htakes, (hverdict 40 run.supply _ _ _).2 hleads⟩

end Engine
end RecipeNet
