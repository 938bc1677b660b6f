import RecipeNet.Proofs.Addressing

/-!
Where addresses lead. What a net reports to have begun is a task of its plan, at the address
where the plan has it; and a report to a task of the plan can be refused for one reason
only, that the net does not wait for the activity.
-/

namespace RecipeNet

/-- An address leads through the nested plans of a plan to a task with some activity and some
number of outputs. -/
inductive Plan.Leads : Plan → List String → String → Nat → Prop
  | task {plan : Plan} {step : StepSpec} {activity : String} (stands : step ∈ plan.steps)
      (task : step.kind = .task activity) : Leads plan [step.id] activity step.outputs.length
  | nested {plan inner : Plan} {step : StepSpec} {results : ResultMap} {path : List String}
      {activity : String} {outs : Nat} (stands : step ∈ plan.steps)
      (nested : step.kind = .nested inner results) (inside : Leads inner path activity outs) :
    Leads plan (step.id :: path) activity outs

namespace Plan.Leads

variable {plan : Plan} {path : List String} {activity other : String} {outs more : Nat}

theorem ne_nil (h : plan.Leads path activity outs) : path ≠ [] := by
  cases h <;> exact List.cons_ne_nil _ _

/-- An address leads to one task of a sound plan at most. -/
theorem unique (sound : plan.flaws = []) (h : plan.Leads path activity outs)
    (h' : plan.Leads path other more) : activity = other ∧ outs = more := by
  induction h with
  | @task plan step activity stands task =>
    generalize hpath : [step.id] = path at h'
    cases h' with
    | @task _ step' _ stands' task' =>
      obtain rfl := List.inj_on_of_nodup_map (Plan.sound_of_flaws sound).distinctSteps stands stands'
        (List.cons.inj hpath).1
      cases task.symm.trans task'
      exact ⟨rfl, rfl⟩
    | nested _ _ inside => exact absurd (List.cons.inj hpath).2.symm inside.ne_nil
  | @nested plan inner step results path activity outs stands nested inside ih =>
    generalize hpath : step.id :: path = path' at h'
    cases h' with
    | task => exact absurd (List.cons.inj hpath).2 inside.ne_nil
    | @nested _ _ step' _ _ _ _ stands' nested' inside' =>
      have hsound := Plan.sound_of_flaws sound
      obtain rfl := List.inj_on_of_nodup_map hsound.distinctSteps stands stands'
        (List.cons.inj hpath).1
      obtain rfl := (List.cons.inj hpath).2
      cases nested.symm.trans nested'
      have hflaws := (hsound.steps step stands).nested
      rw [nested] at hflaws
      exact ih (StepKind.nested_flaws_eq_nil hflaws).1 inside'

end Plan.Leads

namespace Engine

variable {e : Engine} {path : List String} {activity : String} {t : Token} {outs : Nat}

/-- Each step of a net has been made of a step of its plan. -/
theorem Fits.made (h : e.Fits .standard) : List.Forall₂ (fun step slot => step.id = slot.step ∧
    slot.outputs.length = step.outputs.length ∧
    slot.transition.outline = .ofFitting .standard (.standard step)) e.plan.steps e.slots := by
  have hslots := (built_of_build h.1).slots
  change List.Forall₂ _ e.plan.steps (e.slots.map Slot.outline) at hslots
  rw [List.forall₂_map_right_iff] at hslots
  refine hslots.imp fun step slot hfit => ?_
  obtain ⟨inputs, outputs, fitting, -, hout, hstandard, heq⟩ := fitSlot_ok.1 hfit
  obtain rfl := Except.ok.inj hstandard
  have houtputs : slot.outputs = outputs := congrArg Slot.outputs heq
  exact ⟨(congrArg Slot.step heq).symm, houtputs ▸ (placeIndices_ok hout).length_eq.symm,
    congrArg Slot.transition heq⟩

/-- What a net waits for is a task of its plan. -/
theorem Awaits.leads (hfits : e.Throughout (Fits .standard)) (h : e.Awaits path activity t outs) :
    e.plan.Leads path activity outs := by
  obtain ⟨slot, hs, ha⟩ := h
  induction ha generalizing e with
  | @task slot activity held t task isHeld =>
    obtain ⟨step, hstep, hid, houts, hmade⟩ := exists_left_of_forall₂ hfits.here.made hs
    rw [← hid, houts]
    refine .task hstep ?_
    rw [task] at hmade
    cases hkind : step.kind <;> simp [Fitting.standard, hkind, Transition.ofFitting,
      Transition.outline] at hmade
    exact congrArg _ hmade.symm
  | @nested slot inner nest u child path activity t outs busy stands inside ih =>
    obtain ⟨step, hstep, hid, -, hmade⟩ := exists_left_of_forall₂ hfits.here.made hs
    have hinner := ih (hfits.child hs busy) stands
    rw [hfits.here.2 slot hs nest u child busy] at hinner
    rw [← hid]
    rw [busy] at hmade
    cases hkind : step.kind <;> simp [Fitting.standard, hkind, Transition.ofFitting,
      Transition.outline] at hmade
    subst hmade
    exact .nested hstep hkind hinner

end Engine

/-- What is reported to have begun is waited for. -/
theorem Act.begins {sc sc' : Scene} {events : List Event} (h : Act sc events sc') {path : List String}
    {activity : String} {t : Token} (hmem : .started ⟨path⟩ activity t ∈ events) :
    ∃ outs, sc'.engine.Awaits path activity t outs := by
  induction h generalizing path with
  | woken | seated | refreshed | botched | refused | balked | released | closed | sunk => cases hmem
  | ended => cases List.mem_singleton.1 hmem
  | @fired sc i slot firing r r' running stands fires =>
    have hnote := (List.mem_cons.1 hmem).resolve_left nofun
    have hnow := Engine.become_slot r'.holdings firing.after stands
    generalize slot.transition = tr at fires
    cases fires with
    | begin _ before _ u =>
      cases List.mem_singleton.1 hnote
      exact ⟨_, _, List.mem_of_getElem? hnow,
        .task rfl (List.mem_append_right _ (List.mem_singleton_self _))⟩
    | pass | routed | split | join | launch => cases hnote
  | @announced sc i slot activity' held running stands task =>
    obtain ⟨u, hu, hevent⟩ := List.mem_map.1 hmem
    cases hevent
    exact ⟨_, slot, List.mem_of_getElem? stands, .task task hu⟩
  | @inside sc i slot nest u child child' events s' lore' running stands busy act ih =>
    obtain ⟨inner, hinner, hwithin⟩ := List.mem_filterMap.1 hmem
    cases inner with
    | fired | completed => cases hwithin
    | started step activity' u' =>
      cases hwithin
      obtain ⟨outs, slot', hs, ha⟩ := ih hinner
      have hnow := Engine.become_slot sc.engine.holdings (.busy nest u child') stands
      exact ⟨outs, _, List.mem_of_getElem? hnow, .nested rfl hs ha⟩

/-- What is reported to have begun is a task of the plan. -/
theorem Course.leads {sc sc' : Scene} {events : List Event} (h : Course sc events sc')
    (hsound : sc.Sound .standard) {path : List String} {activity : String} {t : Token}
    (hmem : .started ⟨path⟩ activity t ∈ events) :
    ∃ outs, sc.engine.plan.Leads path activity outs := by
  induction h with
  | nil => cases hmem
  | @cons a b c events more act rest ih =>
    have hnext := (Course.of_act act).sound Fitter.standard_regular hsound
    rw [← act.plan_eq]
    rcases List.mem_append.1 hmem with hnow | hlater
    · obtain ⟨outs, hawaits⟩ := act.begins hnow
      exact ⟨outs, hawaits.leads (Engine.throughout_fits hnext.kept)⟩
    · exact ih hnext hlater

namespace Engine

variable {e : Engine} {path : List String} {activity : String} {outs output : Nat} {token : TokenId}

/-- The step of a net that a step of its plan is found at. -/
theorem Fits.located (h : e.Fits .standard) {step : StepSpec} (hstep : step ∈ e.plan.steps) :
    ∃ i slot, slotIndex? e.slots step.id = some i ∧ e.slots[i]? = some slot ∧ slot.step = step.id ∧
      slot.outputs.length = step.outputs.length ∧
      slot.transition.outline = .ofFitting .standard (.standard step) := by
  obtain ⟨slot, hs, hid, houts, hmade⟩ := exists_left_of_forall₂ h.made.flip hstep
  cases hindex : slotIndex? e.slots step.id with
  | none =>
    have hnone := List.findIdx?_eq_none_iff.1 hindex slot hs
    simp [hid] at hnone
  | some i =>
    obtain ⟨hlt, -⟩ := List.findIdx?_eq_some_iff_getElem.1 hindex
    have hat := List.getElem?_eq_getElem hlt
    have hstep := Slot.slotIndex?_some hindex hat
    obtain rfl := List.inj_on_of_nodup_map h.distinctSteps (List.getElem_mem hlt) hs (hstep.trans hid)
    exact ⟨i, _, rfl, hat, hstep, houts, hmade⟩

/-- A report to a task of the plan that the net does not take is refused because the net does
not wait for it. -/
theorem complete_astray (hfits : e.Throughout (Fits .standard)) (hawake : e.Awake)
    (leads : e.plan.Leads path activity outs) (isOutput : output < outs)
    (astray : ¬ e.Takes path token output) (fuel : Nat) (s : Supply) : ∃ step,
      complete fuel path e token output s = some ⟨e, s, [], .error (.notAwaiting step token)⟩ := by
  generalize hplan : e.plan = plan at leads
  -- The induction is on the way to the task in the plan, along which the net is built.
  induction leads generalizing e with
  | @task plan step activity stands task =>
    subst hplan
    obtain ⟨i, slot, hindex, hslot, hstep, houts, hmade⟩ := hfits.here.located stands
    have hmem := List.mem_of_getElem? hslot
    rw [Fitting.standard, task] at hmade
    cases htr : slot.transition with
    | task activity' held =>
      rw [← hstep, takes_task hfits.here.distinctSteps hmem htr] at astray
      have hnone : held.findIdx? (·.id == token) = none := by
        refine List.findIdx?_eq_none_iff.2 fun t ht => ?_
        by_contra hid
        exact astray ⟨⟨t, ht, by simpa using hid⟩, houts ▸ isOutput⟩
      refine ⟨(e.reaction slot).step, (complete_task hawake.here.running hindex hslot htr fuel token output s).trans ?_⟩
      simp only [release, hnone]
      rw [← htr, andThen_refused hslot rfl]
    | pass | split | join | routed | idle | busy =>
      rw [htr] at hmade
      cases hmade
  | @nested plan inner step results path activity outs stands nested inside ih =>
    subst hplan
    obtain ⟨i, slot, hindex, hslot, hstep, -, hmade⟩ := hfits.here.located stands
    have hmem := List.mem_of_getElem? hslot
    obtain ⟨next, more, rfl⟩ := List.exists_cons_of_ne_nil inside.ne_nil
    rw [Fitting.standard, nested] at hmade
    cases htr : slot.transition with
    | idle nest =>
      refine ⟨Address.text ⟨next :: more⟩, ?_⟩
      unfold complete
      rw [if_neg (not_not.2 hawake.here.running)]
      simp only [hindex, hslot, htr]
      rw [← htr, andThen_refused hslot rfl]
    | busy nest u child =>
      rw [htr] at hmade
      have hinner : child.plan = inner := by
        rw [hfits.here.2 slot hmem nest u child htr]
        cases hmade
        rfl
      rw [← hstep, takes_within hfits.here.distinctSteps hmem htr] at astray
      obtain ⟨refuser, hrefused⟩ := ih (hfits.child hmem htr) (hawake.child hmem htr) isOutput astray hinner
      refine ⟨refuser, (complete_inner fuel next more hawake.here.running hindex hslot htr token output
        s).trans ?_⟩
      rw [hrefused]
      simp only [Option.bind_some, Nest.settle, Nest.absorb, Nest.transition]
      rw [← htr, andThen_refused hslot rfl]
    | pass | split | join | routed | task =>
      rw [htr] at hmade
      cases hmade

/-- Whatever is asked of a net, it reports nothing to have begun but tasks of its plan. -/
theorem Steady.leads {plan : Plan} (h : e.Steady .standard plan) {fuel : Nat} {s : Supply} {call : Call}
    {run : Run} (hrun : e.answer fuel s call = some run) {t : Token}
    (hmem : .started ⟨path⟩ activity t ∈ run.events) : ∃ outs, plan.Leads path activity outs := by
  rcases h.answer Fitter.standard_regular hrun with ⟨f, -, rfl⟩ | ⟨hopens, hproper⟩
  · cases hmem
  · obtain ⟨lore, hcourse⟩ := hproper.course
    rw [← hopens.runs]
    exact hcourse.leads (sound_lore hopens.fits s) hmem

end Engine

end RecipeNet
