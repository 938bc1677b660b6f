import RecipeNet.Proofs.Net.Renaming

/-!
What nets do at each step does not depend on identities. A net with other identities
takes note of tokens, halts and is built as the net itself is, with the replacements.
-/

namespace RecipeNet

variable {ρ : Equiv.Perm TokenId}

namespace Slot

theorem allRename_eq (slots : List Slot) : allRename ρ slots = slots.map (rename ρ) := by
  induction slots with
  | nil => rfl
  | cons slot rest ih =>
    cases slot
    rw [allRename, ih]
    rfl

end Slot

namespace Engine

theorem rename_eq (e : Engine) : e.rename ρ =
    ⟨e.plan, e.fingerprint, e.status, e.holdings.map (Holding.rename ρ),
      e.slots.map (Slot.rename ρ), e.completion.map fun x => (x.1, x.2.rename ρ),
      e.haltedBy.map (Fault.rename ρ)⟩ := by
  cases e
  rw [rename, Slot.allRename_eq]

@[simp] theorem rename_status (e : Engine) : (e.rename ρ).status = e.status := by
  rw [rename_eq]

@[simp] theorem rename_holdings (e : Engine) :
    (e.rename ρ).holdings = e.holdings.map (Holding.rename ρ) := by
  rw [rename_eq]

@[simp] theorem rename_slots (e : Engine) : (e.rename ρ).slots = e.slots.map (Slot.rename ρ) := by
  rw [rename_eq]

theorem rename_slotIndex? (slots : List Slot) (step : String) :
    slotIndex? (slots.map (Slot.rename ρ)) step = slotIndex? slots step := by
  simp [slotIndex?, List.findIdx?_map, Function.comp_def, Slot.rename]

theorem rename_reaction (e : Engine) (slot : Slot) :
    (e.rename ρ).reaction (slot.rename ρ) = (e.reaction slot).rename ρ := by
  simp [reaction, Reaction.rename, Slot.rename]

theorem rename_withReacted (e : Engine) (i : Nat) (reacted : Reacted) (s : Supply) :
    (e.rename ρ).withReacted i (reacted.rename ρ s) = (e.withReacted i reacted).rename ρ := by
  have hslots : (e.slots.map (Slot.rename ρ)).modify i
      (fun slot => { slot with transition := reacted.transition.rename ρ }) =
        (e.slots.modify i fun slot => { slot with transition := reacted.transition }).map
          (Slot.rename ρ) := by
    apply List.ext_getElem?
    intro j
    simp only [List.getElem?_modify, List.getElem?_map]
    by_cases hj : i = j <;> cases e.slots[j]? <;> simp [hj, Slot.rename]
  unfold withReacted
  rw [rename_eq (e := { e with
    holdings := reacted.reaction.holdings
    slots := e.slots.modify i fun slot => { slot with transition := reacted.transition } })]
  simp only [← hslots, rename_eq e]
  rfl

theorem rename_halt (e : Engine) (f : Fault) :
    (e.rename ρ).halt (f.rename ρ) = (e.halt f).rename ρ := by
  have hhalts : (f.rename ρ).halts = f.halts := by
    cases f <;> rfl
  unfold halt
  rw [hhalts, rename_status]
  by_cases hf : f.halts = true
  · rw [if_pos hf, if_pos hf, rename_eq, rename_eq]
    rfl
  · rw [if_neg hf, if_neg hf]

theorem rename_notices (e : Engine) (p : Nat) (t : Token) :
    (e.rename ρ).notices p (t.rename ρ) = (e.notices p t).map (Notice.rename ρ) := by
  have hconsumers : (e.rename ρ).consumers p = e.consumers p := by
    unfold consumers
    rw [rename_slots, List.zipIdx_map, List.flatMap_map]
    rfl
  unfold notices
  rw [hconsumers, List.map_map]
  rfl

theorem rename_accept (e : Engine) (p : Nat) (t : Token) : (e.rename ρ).accept p (t.rename ρ) =
    ((e.accept p t).1.rename ρ, (e.accept p t).2.map (Event.rename ρ)) := by
  unfold accept
  rw [rename_holdings, List.getElem?_map, rename_status]
  cases e.holdings[p]? with
  | none => rfl
  | some h =>
    have hterminal : (h.rename ρ).isTerminal = h.isTerminal := rfl
    simp only [Option.map_some, hterminal]
    split
    · simp only [rename_eq e, rename_eq { e with status := _, completion := _ }]
      rfl
    · rfl

theorem rename_acceptAll (e : Engine) (made : List (Nat × Token)) :
    (e.rename ρ).acceptAll (made.map (renameAt ρ)) = ((e.acceptAll made).1.rename ρ,
      (e.acceptAll made).2.1.map (Notice.rename ρ), (e.acceptAll made).2.2.map (Event.rename ρ)) := by
  induction made generalizing e with
  | nil => rfl
  | cons x rest ih =>
    obtain ⟨p, t⟩ := x
    simp only [List.map_cons, renameAt, acceptAll, rename_accept, ih, rename_notices,
      List.map_append]

theorem rename_visited (e : Engine) (i : Nat) (reacted : Reacted) (s : Supply) :
    (e.rename ρ).visited i (reacted.rename ρ s) = (e.visited i reacted).rename ρ s := by
  unfold visited
  rw [rename_withReacted]
  obtain ⟨r, tr, s, result⟩ := reacted
  cases result with
  | error f =>
    simp only [Reacted.rename, renamed_error, rename_halt]
    rfl
  | ok u =>
    have hproduced : (r.rename ρ).produced = r.produced.map (renameAt ρ) := rfl
    have hevents : (r.rename ρ).events = r.events.map (Event.rename ρ) := rfl
    simp only [Reacted.rename, renamed_ok, hproduced, rename_acceptAll, hevents, ← List.map_append]
    rfl

theorem rename_activate (e : Engine) : (e.rename ρ).activate = e.activate.rename ρ := by
  unfold activate
  rw [rename_eq, rename_eq, List.map_map, List.map_map]
  rfl

theorem rename_held (e : Engine) : (e.rename ρ).held = e.held.map (renameAt ρ) := by
  unfold held
  rw [rename_holdings, List.zipIdx_map, List.flatMap_map, List.map_flatMap]
  congr 1
  funext x
  obtain ⟨h, p⟩ := x
  simp [Holding.rename, renameAt, Function.comp_def]

theorem rename_enter (e : Engine) (t : Token) : (e.rename ρ).enter (t.rename ρ) =
    renamed ρ (fun x => (x.1.rename ρ, x.2.1.map (Notice.rename ρ), x.2.2.map (Event.rename ρ)))
      (e.enter t) := by
  have hstart : (e.rename ρ).holdings.findIdx? (·.place.role == .start) =
      e.holdings.findIdx? (·.place.role == .start) := by
    simp [List.findIdx?_map, Function.comp_def]
  have hentered : ∀ p, { (e.rename ρ).activate with
      status := .running, holdings := (e.rename ρ).holdings.modify p (·.add (t.rename ρ)) } =
        Engine.rename ρ { e.activate with
          status := .running, holdings := e.holdings.modify p (·.add t) } := by
    intro p
    have hholdings : (e.holdings.map (Holding.rename ρ)).modify p (·.add (t.rename ρ)) =
        (e.holdings.modify p (·.add t)).map (Holding.rename ρ) := by
      apply List.ext_getElem?
      intro j
      simp only [List.getElem?_modify, List.getElem?_map]
      by_cases hj : p = j <;> cases e.holdings[j]? <;> simp [hj]
    rw [rename_activate, rename_holdings, hholdings, rename_eq, rename_eq]
  unfold enter
  rw [rename_status, hstart]
  split
  · simp only [hentered]
    exact congrArg Except.ok (rename_acceptAll _ [(_, t)])
  · rfl

/-- That a place is unknown is no matter of identities. -/
theorem rename_unknown {holdings : List Holding} {places : List String} {f : Fault}
    (h : placeIndices holdings places = .error f) : f.rename ρ = f := by
  induction places with
  | nil => cases h
  | cons place rest ih =>
    unfold placeIndices at h
    cases hplace : placeIndex? holdings place with
    | none =>
      rw [hplace] at h
      cases h
      rfl
    | some i =>
      rw [hplace] at h
      cases hrest : placeIndices holdings rest with
      | ok indices =>
        rw [hrest] at h
        cases h
      | error g =>
        rw [hrest] at h
        cases h
        exact ih hrest

theorem rename_fitSlot (fitter : Fitter) (holdings : List Holding) (step : StepSpec) :
    fitSlot (Fitter.rename ρ fitter) holdings step =
      renamed ρ (Slot.rename ρ) (fitSlot fitter holdings step) := by
  have hfitted : ∀ fitting : Fitting,
      Transition.ofFitting (Fitter.rename ρ fitter) (fitting.rename ρ) =
        (Transition.ofFitting fitter fitting).rename ρ := by
    intro fitting
    cases fitting <;> rfl
  unfold fitSlot
  cases hin : placeIndices holdings step.inputs with
  | error f => exact congrArg Except.error (rename_unknown hin).symm
  | ok inputs =>
    cases hout : placeIndices holdings step.outputs with
    | error f => exact congrArg Except.error (rename_unknown hout).symm
    | ok outputs =>
      simp only [Fitter.rename]
      cases fitter step with
      | error f => rfl
      | ok fitting =>
        simp only [Fitting.renameAnswer, bind, Except.bind, hfitted]
        rfl

/-- Building does not depend on identities, routing rules aside. -/
theorem rename_build (fitter : Fitter) (plan : Plan) :
    build (Fitter.rename ρ fitter) plan = renamed ρ (rename ρ) (build fitter plan) := by
  have hplaces : (plan.places.map Holding.new).map (Holding.rename ρ) =
      plan.places.map Holding.new := by
    rw [List.map_map]
    rfl
  have hslots : ∀ steps : List StepSpec,
      steps.mapM (fitSlot (Fitter.rename ρ fitter) (plan.places.map Holding.new)) =
        renamed ρ (List.map (Slot.rename ρ))
          (steps.mapM (fitSlot fitter (plan.places.map Holding.new))) := by
    intro steps
    induction steps with
    | nil => rfl
    | cons step rest ih =>
      rw [List.mapM_cons, List.mapM_cons, ih, rename_fitSlot]
      cases fitSlot fitter (plan.places.map Holding.new) step with
      | error f => rfl
      | ok slot =>
        cases rest.mapM (fitSlot fitter (plan.places.map Holding.new)) <;> rfl
  unfold build
  dsimp only
  rw [hslots]
  cases hvalid : plan.validate with
  | error f =>
    have hsame : f.rename ρ = f := by
      unfold Plan.validate at hvalid
      split at hvalid <;> cases hvalid
      rfl
    exact congrArg Except.error hsame.symm
  | ok u =>
    cases plan.steps.mapM (fitSlot fitter (plan.places.map Holding.new)) with
    | error f => rfl
    | ok slots =>
      simp only [renamed_ok, bind, Except.bind]
      rw [rename_eq, hplaces]
      rfl

end Engine

namespace Nest

variable (nest : Nest)

def renameRunning (ρ : Equiv.Perm TokenId) (x : Token × Engine) : Token × Engine :=
  (x.1.rename ρ, x.2.rename ρ)

theorem rename_transition (running : Option (Token × Engine)) :
    (nest.rename ρ).transition (running.map (renameRunning ρ)) =
      (nest.transition running).rename ρ := by
  cases running <;> rfl

theorem rename_absorb (running : Option (Token × Engine)) (done : Bool) (r : Reaction)
    (events : List Event) :
    (nest.rename ρ).absorb (running.map (renameRunning ρ)) done (r.rename ρ)
        (events.map (Event.rename ρ)) =
      ((nest.absorb running done r events).1.rename ρ,
        (nest.absorb running done r events).2.1.map (renameRunning ρ),
        renamed ρ id (nest.absorb running done r events).2.2) := by
  induction events generalizing running done r with
  | nil => rfl
  | cons event rest ih =>
    cases event with
    | completed place t =>
      have houtputs : (nest.rename ρ).outputs = nest.outputs := rfl
      simp only [List.map_cons, Event.rename, absorb, houtputs]
      cases nest.outputs.output? place with
      | none => rfl
      | some output =>
        cases running with
        | none => exact ih none done r
        | some x =>
          simp only [Option.map_some, renameRunning, Reaction.rename_produce]
          cases r.produce output x.1 with
          | error f => rfl
          | ok r' => exact ih none true r'
    | fired step =>
      have hraise := r.rename_raise (ρ := ρ) (.fired (step.within r.step))
      simp only [Event.rename] at hraise
      simp only [List.map_cons, Event.rename, absorb, Event.within, Reaction.rename_step, hraise]
      exact ih running done (r.raise (.fired (step.within r.step)))
    | started step activity t =>
      have hraise := r.rename_raise (ρ := ρ) (.started (step.within r.step) activity t)
      simp only [Event.rename] at hraise
      simp only [List.map_cons, Event.rename, absorb, Event.within, Reaction.rename_step, hraise]
      exact ih running done (r.raise (.started (step.within r.step) activity t))

end Nest
end RecipeNet
