import RecipeNet.Proofs.Plan.Document
import RecipeNet.Proofs.Plan.Wrapping

/-!
Well-formed plans, said without looking for flaws: what the places, the steps and the
nested plans of a plan have to be like. A plan has no flaws exactly if it is well-formed,
and exactly then there is a net of it.
-/

namespace RecipeNet

def Shows (id : String) : Prop := ∃ c ∈ id.toList, Text.isBlank c = false

structure PlacesFit (places : List PlaceSpec) : Prop where
  some : places ≠ []
  named : ∀ place ∈ places, Shows place.id
  distinct : (places.map (·.id)).Nodup
  start : (places.filter (·.role = .start)).length = 1
  terminal : ∃ place ∈ places, place.role = .terminal

/-- The numbers of connectors that a step of some kind may have. -/
def StepKind.Admits (ins outs : Nat) : StepKind → Prop
  | .pass output => ins = 1 ∧ output.toNat < outs
  | .join => 0 < ins ∧ outs = 1
  | .split | .task _ | .nested _ _ => ins = 1 ∧ 0 < outs

/-- The output that a terminal place of a nested plan leads to: that of its id, else that of
its label, or if no results are given the one at its position among the terminal places. -/
inductive ResultMap.Sends (results : ResultMap) (position : Nat) (place : PlaceSpec) : Nat → Prop
  | position (none : results.entries = []) : Sends results position place position
  | named {output : UInt64} (entry : (place.id, output) ∈ results.entries) :
    Sends results position place output.toNat
  | labelled {label : String} {output : UInt64}
      (unnamed : ∀ output, (place.id, output) ∉ results.entries) (isLabel : place.label = some label)
      (entry : (label, output) ∈ results.entries) : Sends results position place output.toNat

structure StepFits (places : List PlaceSpec) (step : StepSpec) : Prop where
  named : Shows step.id
  connectors : ∀ id ∈ step.inputs ++ step.outputs, ∃ place ∈ places, place.id = id
  arity : step.kind.Admits step.inputs.length step.outputs.length
  results : ∀ inner results, step.kind = .nested inner results →
    ∀ position place, inner.terminals[position]? = some place →
      ∃ output, results.Sends position place output ∧ output < step.outputs.length

/-- A plan whose places and steps fit together, and so at every depth. -/
inductive Plan.WellFormed : Plan → Prop
  | intro {plan : Plan} (places : PlacesFit plan.places)
      (steps : ∀ step ∈ plan.steps, StepFits plan.places step)
      (distinct : (plan.steps.map (·.id)).Nodup)
      (nested : ∀ step ∈ plan.steps, ∀ inner results, step.kind = .nested inner results →
        WellFormed inner) : WellFormed plan

namespace Text

theorem dropBlankTail_eq_nil {cs : List Char} :
    dropBlankTail cs = [] ↔ ∀ c ∈ cs, isBlank c = true := by
  induction cs with
  | nil => simp [dropBlankTail]
  | cons c rest ih =>
    rw [dropBlankTail, List.forall_mem_cons]
    cases hrest : dropBlankTail rest with
    | nil => simpa using fun _ => ih.1 hrest
    | cons d kept =>
      have hsome : ¬ ∀ c ∈ rest, isBlank c = true := fun hall => by
        rw [ih.2 hall] at hrest
        cases hrest
      exact iff_of_false (List.cons_ne_nil _ _) fun hall => hsome hall.2

theorem trimChars_eq_nil {cs : List Char} : trimChars cs = [] ↔ ∀ c ∈ cs, isBlank c = true := by
  rw [trimChars, dropBlankTail_eq_nil]
  constructor
  · intro hall c hc
    rw [← List.takeWhile_append_dropWhile (p := isBlank) (l := cs)] at hc
    rcases List.mem_append.1 hc with hfront | hback
    · exact List.all_eq_true.1 List.all_takeWhile c hfront
    · exact hall c hback
  · exact fun hall c hc => hall c ((List.dropWhile_sublist _).mem hc)

end Text

theorem isBlankId_eq_false {id : String} : isBlankId id = false ↔ Shows id := by
  have hempty : isBlankId id = true ↔ ∀ c ∈ id.toList, Text.isBlank c = true := by
    rw [← Text.trimChars_eq_nil, isBlankId, Text.trim]
    simp
  rw [← Bool.not_eq_true, hempty, Shows]
  simp

instance (id : String) : Decidable (Shows id) :=
  decidable_of_iff (isBlankId id = false) isBlankId_eq_false

theorem mem_placeIds {places : List PlaceSpec} (named : ∀ place ∈ places, Shows place.id)
    {id : String} : id ∈ placeIds places ↔ ∃ place ∈ places, place.id = id := by
  rw [placeIds, List.mem_filter, List.mem_map]
  refine and_iff_left_of_imp ?_
  rintro ⟨place, hplace, rfl⟩
  rw [isBlankId_eq_false.2 (named place hplace)]
  rfl

theorem roleFlaws_eq_nil_iff {places : List PlaceSpec} : roleFlaws places = [] ↔
    (places.filter (·.role = .start)).length = 1 ∧ ∃ place ∈ places, place.role = .terminal := by
  have hstarts : places.countP (·.role == .start) = (places.filter (·.role = .start)).length := by
    rw [List.countP_eq_length_filter]
    rfl
  have hends : places.any (·.isTerminal) = true ↔ ∃ place ∈ places, place.role = .terminal := by
    simp [PlaceSpec.isTerminal]
  rw [roleFlaws, List.append_eq_nil_iff, ← hends, hstarts]
  refine and_congr ?_ (by simp)
  generalize (places.filter (·.role = .start)).length = count
  rcases count with _ | _ | count <;> simp

theorem placesFit_iff {places : List PlaceSpec} : PlacesFit places ↔
    places ≠ [] ∧ placeFlaws [] places = [] ∧ roleFlaws places = [] := by
  rw [roleFlaws_eq_nil_iff]
  constructor
  · rintro ⟨hsome, hnamed, hdistinct, hstart, hterminal⟩
    refine ⟨hsome, ?_, hstart, hterminal⟩
    apply placeFlaws_of_sound
    · exact fun place hplace => isBlankId_eq_false.2 (hnamed place hplace)
    · exact fun _ _ => List.not_mem_nil
    · exact hdistinct
  · rintro ⟨hsome, hplaces, hstart, hterminal⟩
    obtain ⟨hnamed, hdistinct⟩ := placeFlaws_eq_nil hplaces
    exact ⟨hsome, fun place hplace => isBlankId_eq_false.1 (hnamed place hplace).1, hdistinct, hstart,
      hterminal⟩

theorem arityProblems_eq_nil {step : StepSpec} : arityProblems step = [] ↔
    step.kind.Admits step.inputs.length step.outputs.length := by
  unfold arityProblems StepKind.Admits
  cases step.kind <;> simp [List.append_eq_nil_iff, Nat.pos_iff_ne_zero]

/-- Steps of which each is sound among the known places, with ids of their own. -/
theorem StepSpec.flaws_eq_nil_iff {known seen : List String} {steps : List StepSpec} :
    StepSpec.flaws known seen steps = [] ↔
      (∀ step ∈ steps, step.Sound known ∧ step.id ∉ seen) ∧ (steps.map (·.id)).Nodup := by
  refine ⟨flaws_eq_nil, ?_⟩
  rintro ⟨hsound, hdistinct⟩
  induction steps generalizing seen with
  | nil => rfl
  | cons step rest ih =>
    obtain ⟨id, name, inputs, outputs, kind⟩ := step
    obtain ⟨⟨hfirst, hnew⟩, hothers⟩ := List.forall_mem_cons.1 hsound
    obtain ⟨hown, hdistinct⟩ := List.nodup_cons.1 hdistinct
    have hconnectors : connectorFlaws known ⟨id, name, inputs, outputs, kind⟩ = [] := by
      refine List.map_eq_nil_iff.2 (List.filter_eq_nil_iff.2 fun place hplace => ?_)
      rw [decide_eq_true_eq, not_not]
      rcases List.mem_append.1 hplace with hin | hout
      · exact hfirst.inputs place hin
      · exact hfirst.outputs place hout
    have harity : arityFlaws ⟨id, name, inputs, outputs, kind⟩ = [] := by
      rw [arityFlaws, hfirst.arity, List.map_nil]
    have hlater : StepSpec.flaws known (id :: seen) rest = [] := by
      refine ih (fun other hother => ⟨(hothers other hother).1, fun hmem => ?_⟩) hdistinct
      rcases List.mem_cons.1 hmem with heq | hseen
      · exact hown (List.mem_map.2 ⟨other, hother, heq⟩)
      · exact (hothers other hother).2 hseen
    have hblank : ¬ isBlankId id = true := Bool.eq_false_iff.1 hfirst.named
    rw [StepSpec.flaws, if_neg hblank]
    simp only [if_neg hnew, hconnectors, harity, hfirst.nested, hlater, List.append_nil]

namespace ResultMap

variable {results : ResultMap} {name : String} {output : UInt64}

theorem get?_eq_some : results.get? name = some output ↔ (name, output) ∈ results.entries := by
  have hapart : results.entries.Pairwise (fun a b => a.1 ≠ b.1) :=
    results.sorted.imp fun h => String.ne_of_lt h
  obtain ⟨entries, sorted⟩ := results
  dsimp only at hapart
  unfold get?
  dsimp only
  clear sorted
  induction entries with
  | nil => simp
  | cons entry rest ih =>
    obtain ⟨key, value⟩ := entry
    obtain ⟨hfirst, hrest⟩ := List.pairwise_cons.1 hapart
    rw [List.lookup_cons, List.mem_cons, Prod.mk.injEq]
    by_cases hname : name = key
    · subst hname
      have hnone : (name, output) ∉ rest := fun hmem => hfirst _ hmem rfl
      simp [hnone, eq_comm]
    · have hfalse : (name == key) = false := beq_eq_false_iff_ne.2 hname
      simp [hfalse, hname, ih hrest]

open OutputMap hiding none in
/-- The entry of a terminal place tells where the place leads to. -/
theorem sends_iff {position target : Nat} {place : PlaceSpec} : results.Sends position place target ↔
    entry? results position place = some (place.id, target) := by
  have hempty : results.isEmpty = true ↔ results.entries = [] := List.isEmpty_iff
  unfold entry?
  constructor
  · intro h
    cases h with
    | position none => simp [hempty.2 none]
    | named entry =>
      have hsome : ¬ results.isEmpty = true := fun h => by simp [hempty.1 h] at entry
      simp [hsome, OutputMap.explicit?, get?_eq_some.2 entry]
    | labelled unnamed isLabel entry =>
      have hsome : ¬ results.isEmpty = true := fun h => by simp [hempty.1 h] at entry
      have hnone : results.get? place.id = none :=
        Option.eq_none_iff_forall_not_mem.2 fun output h => unnamed output (get?_eq_some.1 h)
      simp [hsome, OutputMap.explicit?, hnone, isLabel, get?_eq_some.2 entry]
  · intro h
    split at h
    · rename_i hnone
      obtain rfl : position = target := by simpa using h
      exact .position (hempty.1 hnone)
    · obtain ⟨output, houtput, heq⟩ := Option.map_eq_some_iff.1 h
      obtain rfl : output = target := (Prod.mk.inj heq).2
      unfold OutputMap.explicit? at houtput
      split at houtput
      · rename_i value hvalue
        obtain rfl := Option.some.inj houtput
        exact .named (get?_eq_some.1 hvalue)
      · rename_i hnone
        obtain ⟨value, hvalue, rfl⟩ := Option.map_eq_some_iff.1 houtput
        obtain ⟨label, hlabel, hvalue⟩ := Option.bind_eq_some_iff.1 hvalue
        refine .labelled (fun output h => ?_) hlabel (get?_eq_some.1 hvalue)
        rw [get?_eq_some.2 h] at hnone
        cases hnone

end ResultMap

/-- The terminal places of a plan without flaws lead to where its map says. -/
theorem OutputMap.output?_sends {plan : Plan} {results : ResultMap} (sound : plan.flaws = [])
    {position target : Nat} {place : PlaceSpec} (h : plan.terminals[position]? = some place) :
    (OutputMap.of plan results).output? place.id = some target ↔
      results.Sends position place target := by
  rw [output?_of (Plan.distinct_terminals sound) h, ResultMap.sends_iff]
  unfold entry?
  simp

theorem StepKind.nested_flaws_iff {id : String} {outputs : Nat} {plan : Plan} {results : ResultMap} :
    StepKind.flaws id outputs (.nested plan results) = [] ↔ plan.flaws = [] ∧
      ∀ position place, plan.terminals[position]? = some place →
        ∃ output, results.Sends position place output ∧ output < outputs := by
  constructor
  · intro h
    obtain ⟨hsound, hall⟩ := nested_flaws_eq_nil h
    refine ⟨hsound, fun position place hplace => ?_⟩
    obtain ⟨output, hout, hlt⟩ := hall place (List.mem_of_getElem? hplace)
    exact ⟨output, (OutputMap.output?_sends hsound hplace).1 hout, hlt⟩
  · rintro ⟨hsound, hall⟩
    have hnone : outputFlaws id outputs plan results = [] := by
      refine List.filterMap_eq_nil_iff.2 fun place hmem => ?_
      obtain ⟨position, hplace⟩ := List.mem_iff_getElem?.1 hmem
      obtain ⟨output, hsends, hlt⟩ := hall position place hplace
      rw [(OutputMap.output?_sends hsound hplace).2 hsends]
      exact if_pos hlt
    obtain ⟨pid, version, places, steps⟩ := plan
    rw [StepKind.flaws, hsound]
    exact hnone

/-- A step is sound exactly if it fits and what it nests has no flaws. -/
theorem StepSpec.sound_iff {places : List PlaceSpec} (named : ∀ place ∈ places, Shows place.id)
    {step : StepSpec} : step.Sound (placeIds places) ↔ StepFits places step ∧
      ∀ inner results, step.kind = .nested inner results → inner.flaws = [] := by
  constructor
  · rintro ⟨hnamed, hinputs, houtputs, harity, hnested⟩
    refine ⟨⟨isBlankId_eq_false.1 hnamed, fun id hid => ?_, arityProblems_eq_nil.1 harity, ?_⟩, ?_⟩
    · rcases List.mem_append.1 hid with hin | hout
      · exact (mem_placeIds named).1 (hinputs id hin)
      · exact (mem_placeIds named).1 (houtputs id hout)
    · intro inner results hkind
      rw [hkind] at hnested
      exact (StepKind.nested_flaws_iff.1 hnested).2
    · intro inner results hkind
      rw [hkind] at hnested
      exact (StepKind.nested_flaws_iff.1 hnested).1
  · rintro ⟨⟨hnamed, hconnectors, harity, hresults⟩, hinner⟩
    refine ⟨isBlankId_eq_false.2 hnamed, fun id hid => ?_, fun id hid => ?_,
      arityProblems_eq_nil.2 harity, ?_⟩
    · exact (mem_placeIds named).2 (hconnectors id (List.mem_append_left _ hid))
    · exact (mem_placeIds named).2 (hconnectors id (List.mem_append_right _ hid))
    · cases hkind : step.kind with
      | nested inner results =>
        exact StepKind.nested_flaws_iff.2 ⟨hinner inner results hkind, hresults inner results hkind⟩
      | pass | split | join | task => simp [StepKind.flaws]

namespace Plan

theorem flaws_eq_nil_iff {plan : Plan} : plan.flaws = [] ↔ PlacesFit plan.places ∧
    (∀ step ∈ plan.steps, step.Sound (placeIds plan.places)) ∧ (plan.steps.map (·.id)).Nodup := by
  obtain ⟨id, version, places, steps⟩ := plan
  rw [Plan.flaws, placesFit_iff]
  cases places with
  | nil => simp
  | cons place rest =>
    rw [List.isEmpty_cons, if_neg Bool.false_ne_true, List.append_eq_nil_iff, List.append_eq_nil_iff,
      StepSpec.flaws_eq_nil_iff]
    simp

/-- A plan has no flaws exactly if it is well-formed. -/
theorem flaws_eq_nil_iff_wellFormed (plan : Plan) : plan.flaws = [] ↔ plan.WellFormed := by
  induction plan using nested_induction with
  | h plan ih =>
    rw [flaws_eq_nil_iff]
    constructor
    · rintro ⟨hplaces, hsteps, hdistinct⟩
      refine .intro hplaces (fun step hstep => ?_) hdistinct fun step hstep inner results hkind => ?_
      · exact ((StepSpec.sound_iff hplaces.named).1 (hsteps step hstep)).1
      · have hinner := ((StepSpec.sound_iff hplaces.named).1 (hsteps step hstep)).2
        exact (ih step hstep inner results hkind).1 (hinner inner results hkind)
    · rintro ⟨hplaces, hsteps, hdistinct, hnested⟩
      refine ⟨hplaces, fun step hstep => (StepSpec.sound_iff hplaces.named).2 ⟨hsteps step hstep, ?_⟩,
        hdistinct⟩
      exact fun inner results hkind =>
        (ih step hstep inner results hkind).2 (hnested step hstep inner results hkind)

/-- The check of a plan accepts the well-formed plans and no others, and a net is built of
just those that it accepts. -/
theorem validate_iff_wellFormed (plan : Plan) :
    (plan.validate = .ok () ↔ plan.WellFormed) ∧
      ((∃ e, Engine.build .standard plan = .ok e) ↔ plan.validate = .ok ()) := by
  constructor
  · rw [validate_ok]
    exact flaws_eq_nil_iff_wellFormed plan
  · rw [validate_ok]
    constructor
    · rintro ⟨e, hbuild⟩
      exact (Engine.built_of_build hbuild).sound
    · exact Engine.build_isOk Fitter.standard_regular

end Plan
end RecipeNet
