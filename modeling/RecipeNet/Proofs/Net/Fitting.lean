import RecipeNet.Proofs.Net.Outline
import RecipeNet.Proofs.Plan.Soundness

/-!
What building a net establishes. A plan without flaws gives a net whatever
routing rules its steps are fitted with; every connector of the net is the
position of one of its places, and every transition suits its connectors. The
outline carries these facts to all later states of the net.
-/

namespace RecipeNet

theorem forall₂_of_mapM {α β ε : Type} {f : α → Except ε β} {xs : List α} {ys : List β}
    (h : xs.mapM f = .ok ys) : List.Forall₂ (fun x y => f x = .ok y) xs ys := by
  induction xs generalizing ys with
  | nil =>
    cases h
    exact .nil
  | cons x xs ih =>
    rw [List.mapM_cons] at h
    cases hx : f x with
    | error e => simp [hx, bind, Except.bind] at h
    | ok y =>
      cases hxs : xs.mapM f with
      | error e => simp [hx, hxs, bind, Except.bind] at h
      | ok ys' =>
        simp only [hx, hxs, bind, Except.bind, pure, Except.pure, Except.ok.injEq] at h
        subst h
        exact .cons hx (ih hxs)

theorem mapM_of_forall₂ {α β ε : Type} {f : α → Except ε β} {xs : List α} {ys : List β}
    (h : List.Forall₂ (fun x y => f x = .ok y) xs ys) : xs.mapM f = .ok ys := by
  induction h with
  | nil => rfl
  | cons hx _ ih => simp [List.mapM_cons, hx, ih, bind, Except.bind, pure, Except.pure]

theorem exists_mapM {α β ε : Type} {f : α → Except ε β} {xs : List α}
    (h : ∀ x ∈ xs, ∃ y, f x = .ok y) : ∃ ys, xs.mapM f = .ok ys := by
  induction xs with
  | nil => exact ⟨[], rfl⟩
  | cons x rest ih =>
    obtain ⟨hx, hrest⟩ := List.forall_mem_cons.1 h
    obtain ⟨y, hy⟩ := hx
    obtain ⟨ys, hys⟩ := ih hrest
    exact ⟨y :: ys, mapM_of_forall₂ (.cons hy (forall₂_of_mapM hys))⟩

theorem exists_error_of_mapM {α β ε : Type} {f : α → Except ε β} {xs : List α} {e : ε}
    (h : xs.mapM f = .error e) : ∃ x ∈ xs, f x = .error e := by
  induction xs with
  | nil => cases h
  | cons x rest ih =>
    rw [List.mapM_cons] at h
    cases hx : f x with
    | error e' =>
      simp only [hx, bind, Except.bind, Except.error.injEq] at h
      exact ⟨x, List.mem_cons_self, h ▸ hx⟩
    | ok y =>
      cases hrest : rest.mapM f with
      | error e' =>
        simp only [hx, hrest, bind, Except.bind, Except.error.injEq] at h
        obtain ⟨z, hz, hfz⟩ := ih (h ▸ hrest)
        exact ⟨z, List.mem_cons_of_mem _ hz, hfz⟩
      | ok ys => simp [hx, hrest, bind, Except.bind, pure, Except.pure] at h

/-- A factory of the built-in transitions and of routing rules. -/
def Fitter.Regular (fitter : Fitter) : Prop :=
  ∀ step, fitter step = .ok (.standard step) ∨ ∃ rule, fitter step = .ok (.routed rule)

theorem Fitter.standard_regular : Fitter.standard.Regular := fun _ => .inl rfl

/-- Whether a transition can work with some numbers of inputs and outputs, all of
them under one fitter. -/
def Transition.Suits (fitter : Fitter) (ins outs : Nat) : Transition → Prop
  | .pass output => ins = 1 ∧ output < outs
  | .split => ins = 1
  | .join inputs _ => inputs = ins ∧ 0 < ins ∧ outs = 1
  | .task _ _ => ins = 1
  | .routed _ _ => True
  | .idle nest | .busy nest _ _ =>
    ins = 1 ∧ nest.fitter = fitter ∧ nest.plan.flaws = [] ∧ ∀ place ∈ nest.plan.terminals,
      ∃ output, nest.outputs.output? place.id = some output ∧ output < outs

theorem Transition.suits_outline {fitter : Fitter} {ins outs : Nat} {tr : Transition} :
    tr.outline.Suits fitter ins outs ↔ tr.Suits fitter ins outs := by
  cases tr <;> rfl

/-- A step whose positions are those of places, with a transition that suits it. -/
structure Slot.Apt (fitter : Fitter) (places : Nat) (slot : Slot) : Prop where
  inputs : ∀ p ∈ slot.inputs, p < places
  outputs : ∀ p ∈ slot.outputs, p < places
  suits : slot.transition.Suits fitter slot.inputs.length slot.outputs.length

namespace Engine

theorem placeIndices_ok {hs : List Holding} {ids : List String} {is : List Nat}
    (h : placeIndices hs ids = .ok is) :
    List.Forall₂ (fun id i => placeIndex? hs id = some i) ids is := by
  induction ids generalizing is with
  | nil =>
    cases h
    exact .nil
  | cons id rest ih =>
    rw [placeIndices] at h
    split at h
    · rename_i i hi
      cases hrest : placeIndices hs rest with
      | error f => simp [hrest, Except.map] at h
      | ok js =>
        simp only [hrest, Except.map, Except.ok.injEq] at h
        subst h
        exact .cons hi (ih hrest)
    · cases h

theorem placeIndex?_lt {hs : List Holding} {id : String} {i : Nat}
    (h : placeIndex? hs id = some i) : i < hs.length := by
  obtain ⟨hlt, -⟩ := List.findIdx?_eq_some_iff_getElem.1 h
  exact hlt

theorem placeIndices_isOk {hs : List Holding} {ids : List String}
    (h : ∀ id ∈ ids, ∃ p ∈ hs, p.place.id = id) : ∃ is, placeIndices hs ids = .ok is := by
  induction ids with
  | nil => exact ⟨[], rfl⟩
  | cons id rest ih =>
    obtain ⟨is, his⟩ := ih fun q hq => h q (List.mem_cons_of_mem _ hq)
    obtain ⟨p, hp, hid⟩ := h id List.mem_cons_self
    cases hi : placeIndex? hs id with
    | none =>
      rw [placeIndex?, List.findIdx?_eq_none_iff] at hi
      simpa [hid] using hi p hp
    | some i => exact ⟨i :: is, by simp [placeIndices, hi, his, Except.map]⟩

theorem fitSlot_ok {fitter : Fitter} {hs : List Holding} {step : StepSpec} {slot : Slot} :
    fitSlot fitter hs step = .ok slot ↔ ∃ inputs outputs fitting,
      placeIndices hs step.inputs = .ok inputs ∧ placeIndices hs step.outputs = .ok outputs ∧
      fitter step = .ok fitting ∧
      slot = ⟨step.id, inputs, outputs, .initialized, .ofFitting fitter fitting⟩ := by
  simp only [fitSlot]
  cases hin : placeIndices hs step.inputs with
  | error f => simp [bind, Except.bind]
  | ok inputs =>
    cases hout : placeIndices hs step.outputs with
    | error f => simp [bind, Except.bind]
    | ok outputs =>
      cases hfit : fitter step with
      | error f => simp [bind, Except.bind]
      | ok fitting => simp [bind, Except.bind, eq_comm]

structure Built (fitter : Fitter) (plan : Plan) (e : Engine) : Prop where
  sound : plan.flaws = []
  runs : e.plan = plan
  print : e.fingerprint = plan.fingerprint
  status : e.status = .created
  holdings : e.holdings = plan.places.map Holding.new
  slots : List.Forall₂ (fun step slot => fitSlot fitter e.holdings step = .ok slot)
    plan.steps e.slots
  completion : e.completion = none
  haltedBy : e.haltedBy = none

theorem built_of_build {fitter : Fitter} {plan : Plan} {e : Engine}
    (h : build fitter plan = .ok e) : Built fitter plan e := by
  simp only [build, bind, Except.bind] at h
  cases hv : plan.validate with
  | error f => simp [hv] at h
  | ok u =>
    cases hm : plan.steps.mapM (fitSlot fitter (plan.places.map Holding.new)) with
    | error f => simp [hv, hm] at h
    | ok slots =>
      simp only [hv, hm, Except.ok.injEq] at h
      subst h
      exact ⟨Plan.validate_ok.1 hv, rfl, rfl, rfl, rfl, forall₂_of_mapM hm, rfl, rfl⟩

theorem build_of_built {fitter : Fitter} {plan : Plan} {e : Engine} (h : Built fitter plan e) :
    build fitter plan = .ok e := by
  obtain ⟨hsound, hplan, hprint, hstatus, hholds, hslots, hcomp, hhalt⟩ := h
  rw [hholds] at hslots
  simp only [build, bind, Except.bind, Plan.validate_ok.2 hsound, mapM_of_forall₂ hslots]
  cases e
  simp only at *
  subst hplan hprint hstatus hholds hcomp hhalt
  rfl

theorem outline_of_build {fitter : Fitter} {plan : Plan} {e : Engine}
    (h : build fitter plan = .ok e) : e.outline = e := by
  have hb := built_of_build h
  have hholds : e.holdings.map (fun p => Holding.new p.place) = e.holdings := by
    rw [hb.holdings, List.map_map]
    rfl
  have hslots : e.slots.map Slot.outline = e.slots := by
    refine (List.map_congr_left fun slot hslot => ?_).trans (List.map_id _)
    obtain ⟨step, -, hfit⟩ := exists_left_of_forall₂ hb.slots hslot
    obtain ⟨inputs, outputs, fitting, -, -, -, rfl⟩ := fitSlot_ok.1 hfit
    simp only [Slot.outline, Transition.outline_ofFitting, id]
  obtain ⟨-, -, -, hstatus, -, -, hcomp, hhalt⟩ := hb
  cases e
  simp only at *
  simp only [outline, hholds, hslots, hstatus, hcomp, hhalt]

/-- Every connector of a step of a sound plan names one of its places. -/
theorem known_place {plan : Plan} {id : String} (h : id ∈ placeIds plan.places) :
    ∃ p ∈ plan.places.map Holding.new, p.place.id = id := by
  obtain ⟨hmem, -⟩ := List.mem_filter.1 h
  obtain ⟨place, hplace, hid⟩ := List.mem_map.1 hmem
  exact ⟨.new place, List.mem_map_of_mem hplace, hid⟩

/-- A plan without flaws gives a net under every regular fitter. -/
theorem build_isOk {fitter : Fitter} (hf : fitter.Regular) {plan : Plan} (h : plan.flaws = []) :
    ∃ e, build fitter plan = .ok e := by
  have hsound := Plan.sound_of_flaws h
  have hslots : ∀ step ∈ plan.steps,
      ∃ slot, fitSlot fitter (plan.places.map Holding.new) step = .ok slot := by
    intro step hstep
    obtain ⟨inputs, hin⟩ := placeIndices_isOk fun id hid =>
      known_place ((hsound.steps step hstep).inputs id hid)
    obtain ⟨outputs, hout⟩ := placeIndices_isOk fun id hid =>
      known_place ((hsound.steps step hstep).outputs id hid)
    obtain ⟨fitting, hfit⟩ : ∃ fitting, fitter step = .ok fitting := by
      rcases hf step with hstd | ⟨rule, hrule⟩
      · exact ⟨_, hstd⟩
      · exact ⟨_, hrule⟩
    exact ⟨_, fitSlot_ok.2 ⟨inputs, outputs, fitting, hin, hout, hfit, rfl⟩⟩
  obtain ⟨slots, hmap⟩ : ∃ slots, List.Forall₂
      (fun step slot => fitSlot fitter (plan.places.map Holding.new) step = .ok slot)
      plan.steps slots := by
    generalize plan.steps = steps at hslots
    induction steps with
    | nil => exact ⟨[], .nil⟩
    | cons step rest ih =>
      obtain ⟨slots, hrest⟩ := ih fun q hq => hslots q (List.mem_cons_of_mem _ hq)
      obtain ⟨slot, hslot⟩ := hslots step List.mem_cons_self
      exact ⟨slot :: slots, .cons hslot hrest⟩
  exact ⟨_, build_of_built (e := ⟨plan, plan.fingerprint, .created, plan.places.map Holding.new,
    slots, none, none⟩) ⟨h, rfl, rfl, rfl, rfl, hmap, rfl, rfl⟩⟩

/-- A step of a sound plan is given a transition that suits its connectors. -/
theorem suits_of_fitSlot {fitter : Fitter} (hf : fitter.Regular) {known : List String}
    {hs : List Holding} {step : StepSpec} (hstep : step.Sound known) {slot : Slot}
    (h : fitSlot fitter hs step = .ok slot) :
    slot.transition.Suits fitter slot.inputs.length slot.outputs.length := by
  obtain ⟨inputs, outputs, fitting, hin, hout, hfit, rfl⟩ := fitSlot_ok.1 h
  have hins : inputs.length = step.inputs.length := (placeIndices_ok hin).length_eq.symm
  have houts : outputs.length = step.outputs.length := (placeIndices_ok hout).length_eq.symm
  rcases hf step with hstd | ⟨rule, hrule⟩
  · obtain rfl : Fitting.standard step = fitting := by simpa [hstd] using hfit
    have harity := hstep.arity
    have hnested := hstep.nested
    obtain ⟨id, name, stepIns, stepOuts, kind⟩ := step
    dsimp only at hins houts harity hnested ⊢
    rw [hins, houts]
    cases kind with
    | pass output =>
      simp only [arityProblems, List.append_eq_nil_iff, ite_eq_left_iff, List.cons_ne_nil,
        imp_false, not_not] at harity
      exact harity
    | split =>
      simp only [arityProblems, List.append_eq_nil_iff, ite_eq_left_iff, List.cons_ne_nil,
        imp_false, not_not] at harity
      exact harity.1
    | join =>
      simp only [arityProblems, List.append_eq_nil_iff, ite_eq_left_iff, ite_eq_right_iff,
        List.cons_ne_nil, imp_false, not_not] at harity
      exact ⟨rfl, Nat.pos_of_ne_zero harity.1, harity.2⟩
    | nested plan results =>
      simp only [arityProblems, List.append_eq_nil_iff, ite_eq_left_iff, List.cons_ne_nil,
        imp_false, not_not] at harity
      obtain ⟨hflaws, hterminals⟩ := StepKind.nested_flaws_eq_nil hnested
      exact ⟨harity.1, rfl, hflaws, hterminals⟩
    | task activity =>
      simp only [arityProblems, List.append_eq_nil_iff, ite_eq_left_iff, List.cons_ne_nil,
        imp_false, not_not] at harity
      exact harity.1
  · obtain rfl : Fitting.routed rule = fitting := by simpa [hrule] using hfit
    exact trivial

/-- The net is a later state of the one that is built of its plan, and a net
within it runs the plan of its step. -/
def Fits (fitter : Fitter) (e : Engine) : Prop :=
  build fitter e.plan = .ok e.outline ∧
  ∀ slot ∈ e.slots, ∀ nest t child, slot.transition = .busy nest t child → child.plan = nest.plan

theorem Fits.of_build {fitter : Fitter} {plan : Plan} {e : Engine}
    (h : build fitter plan = .ok e) : e.Fits fitter := by
  have hb := built_of_build h
  refine ⟨?_, fun slot hs nest t child ht => ?_⟩
  · rw [outline_of_build h, hb.runs]
    exact h
  · obtain ⟨step, -, hfit⟩ := exists_left_of_forall₂ hb.slots hs
    obtain ⟨inputs, outputs, fitting, -, -, -, rfl⟩ := fitSlot_ok.1 hfit
    cases fitting <;> cases ht

/-- Whatever the steps of a net are fitted with, their connectors are positions of its places. -/
theorem connectors_of_build {fitter : Fitter} {plan : Plan} {e : Engine}
    (h : build fitter plan = .ok e.outline) {slot : Slot} (hs : slot ∈ e.slots) :
    (∀ p ∈ slot.inputs, p < e.holdings.length) ∧ ∀ p ∈ slot.outputs, p < e.holdings.length := by
  have hmem : slot.outline ∈ e.outline.slots := List.mem_map_of_mem hs
  obtain ⟨step, -, hfit⟩ := exists_left_of_forall₂ (built_of_build h).slots hmem
  obtain ⟨inputs, outputs, fitting, hin, hout, -, heq⟩ := fitSlot_ok.1 hfit
  have hlen : e.outline.holdings.length = e.holdings.length := by simp [outline]
  refine ⟨fun p hp => ?_, fun p hp => ?_⟩
  · obtain rfl : inputs = slot.inputs := (congrArg Slot.inputs heq).symm
    obtain ⟨id, -, hid⟩ := exists_left_of_forall₂ (placeIndices_ok hin) hp
    exact hlen ▸ placeIndex?_lt hid
  · obtain rfl : outputs = slot.outputs := (congrArg Slot.outputs heq).symm
    obtain ⟨id, -, hid⟩ := exists_left_of_forall₂ (placeIndices_ok hout) hp
    exact hlen ▸ placeIndex?_lt hid

theorem Fits.slot {fitter : Fitter} (hf : fitter.Regular) {e : Engine} (h : e.Fits fitter)
    {slot : Slot} (hs : slot ∈ e.slots) : slot.Apt fitter e.holdings.length := by
  have hb := built_of_build h.1
  have hmem : slot.outline ∈ e.outline.slots := List.mem_map_of_mem hs
  obtain ⟨step, hstep, hfit⟩ := exists_left_of_forall₂ hb.slots hmem
  have hsuits := suits_of_fitSlot hf ((Plan.sound_of_flaws hb.sound).steps step hstep) hfit
  obtain ⟨hinputs, houtputs⟩ := connectors_of_build h.1 hs
  exact ⟨hinputs, houtputs, Transition.suits_outline.1 hsuits⟩

/-- A step of a net is one of its plan, with the places that it names there, and the plan that
it may run is nested in it. -/
theorem Fits.spec {fitter : Fitter} (hf : fitter.Regular) {e : Engine} (h : e.Fits fitter)
    {slot : Slot} (hs : slot ∈ e.slots) : ∃ step ∈ e.plan.steps, step.id = slot.step ∧
      placeIndices e.outline.holdings step.inputs = .ok slot.inputs ∧
      placeIndices e.outline.holdings step.outputs = .ok slot.outputs ∧
      ∀ nest, slot.transition.outline = .idle nest →
        nest.fitter = fitter ∧ ∃ results, step.kind = .nested nest.plan results := by
  have hslots := (built_of_build h.1).slots
  change List.Forall₂ _ e.plan.steps (e.slots.map Slot.outline) at hslots
  rw [List.forall₂_map_right_iff] at hslots
  obtain ⟨step, hstep, hfit⟩ := exists_left_of_forall₂ hslots hs
  obtain ⟨inputs, outputs, fitting, hin, hout, hfitting, heq⟩ := fitSlot_ok.1 hfit
  obtain rfl : slot.inputs = inputs := congrArg Slot.inputs heq
  obtain rfl : slot.outputs = outputs := congrArg Slot.outputs heq
  refine ⟨step, hstep, (congrArg Slot.step heq).symm, hin, hout, fun nest hidle => ?_⟩
  have hmade : slot.transition.outline = .ofFitting fitter fitting := congrArg Slot.transition heq
  rw [hidle] at hmade
  rcases hf step with hstandard | ⟨rule, hrule⟩
  · obtain rfl := Except.ok.inj (hfitting.symm.trans hstandard)
    cases hkind : step.kind with
    | nested inner results =>
      simp only [Fitting.standard, hkind, Transition.ofFitting, Transition.idle.injEq] at hmade
      exact ⟨hmade ▸ rfl, results, hmade ▸ rfl⟩
    | pass | split | join | task => simp [Fitting.standard, hkind, Transition.ofFitting] at hmade
  · obtain rfl := Except.ok.inj (hfitting.symm.trans hrule)
    cases hmade

/-- The steps of a plan are never fitted with rules of their own. -/
theorem Fits.unrouted {e : Engine} (h : e.Fits .standard) {slot : Slot} (hs : slot ∈ e.slots)
    (rule : List Token → Token → Except String Nat) (seen : List Token) :
    slot.transition ≠ .routed rule seen := by
  intro htr
  have hmem : slot.outline ∈ e.outline.slots := List.mem_map_of_mem hs
  obtain ⟨step, -, hfit⟩ := exists_left_of_forall₂ (built_of_build h.1).slots hmem
  obtain ⟨inputs, outputs, fitting, -, -, hstandard, heq⟩ := fitSlot_ok.1 hfit
  obtain rfl := Except.ok.inj hstandard
  have houtline : slot.transition.outline = .ofFitting .standard (.standard step) :=
    congrArg Slot.transition heq
  rw [htr] at houtline
  cases hkind : step.kind <;> simp [Fitting.standard, hkind, Transition.ofFitting,
    Transition.outline] at houtline

theorem Fits.fitter {fitter : Fitter} (hf : fitter.Regular) {e : Engine} (h : e.Fits fitter)
    {slot : Slot} (hs : slot ∈ e.slots) {nest : Nest} {t : Token} {child : Engine}
    (hbusy : slot.transition = .busy nest t child) : nest.fitter = fitter := by
  have hsuits := (h.slot hf hs).suits
  rw [hbusy] at hsuits
  obtain ⟨-, hfitter, -⟩ := hsuits
  exact hfitter

theorem Fits.places {fitter : Fitter} {e : Engine} (h : e.Fits fitter) :
    e.holdings.map (·.place) = e.plan.places := by
  have hb := (built_of_build h.1).holdings
  have hmap := congrArg (List.map Holding.place) hb
  simpa [outline, List.map_map, Function.comp_def, Holding.new] using hmap

theorem Fits.distinctSteps {fitter : Fitter} {e : Engine} (h : e.Fits fitter) :
    (e.slots.map (·.step)).Nodup := by
  have hb := built_of_build h.1
  have hids : e.slots.map (·.step) = e.plan.steps.map (·.id) := by
    have hslots : List.Forall₂ (fun step slot => step.id = slot.step) e.plan.steps
        e.outline.slots := List.Forall₂.imp (fun step slot hfit => by
      obtain ⟨inputs, outputs, fitting, -, -, -, rfl⟩ := fitSlot_ok.1 hfit
      rfl) hb.slots
    have hsteps : e.plan.steps.map (·.id) = e.outline.slots.map (·.step) := by
      rw [← List.forall₂_eq_eq_eq, List.forall₂_map_left_iff, List.forall₂_map_right_iff]
      exact hslots
    rw [hsteps]
    simp [outline, Slot.outline, Function.comp_def]
  rw [hids]
  exact (Plan.sound_of_flaws hb.sound).distinctSteps

end Engine
end RecipeNet
