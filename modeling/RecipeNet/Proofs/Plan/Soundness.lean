import Mathlib.Data.List.Forall2
import RecipeNet.Net.Engine

/-!
What a plan without flaws promises: ids are distinct, connectors name places of
the plan, each step has the connectors its kind needs, and the results of nested
plans go to outputs that exist. A net is built of every such plan, with all
positions in range.
-/

namespace RecipeNet

theorem placeFlaws_eq_nil {seen : List String} {places : List PlaceSpec}
    (h : placeFlaws seen places = []) :
    (∀ p ∈ places, isBlankId p.id = false ∧ p.id ∉ seen) ∧ (places.map (·.id)).Nodup := by
  induction places generalizing seen with
  | nil => simp
  | cons p rest ih =>
    rw [placeFlaws] at h
    split at h
    · cases h
    · rename_i hblank
      split at h
      · cases h
      · rename_i hnew
        obtain ⟨hrest, hnodup⟩ := ih h
        refine ⟨fun q hq => ?_, ?_⟩
        · rcases List.mem_cons.1 hq with rfl | hq
          · exact ⟨by simpa using hblank, hnew⟩
          · obtain ⟨hb, hs⟩ := hrest q hq
            exact ⟨hb, fun hmem => hs (List.mem_cons_of_mem _ hmem)⟩
        · rw [List.map_cons, List.nodup_cons]
          refine ⟨fun hmem => ?_, hnodup⟩
          obtain ⟨q, hq, hid⟩ := List.mem_map.1 hmem
          exact (hrest q hq).2 (hid ▸ List.mem_cons_self)

theorem roleFlaws_eq_nil {places : List PlaceSpec} (h : roleFlaws places = []) :
    (∃ p ∈ places, p.role = .start) ∧ ∃ p ∈ places, p.isTerminal = true := by
  rw [roleFlaws, List.append_eq_nil_iff] at h
  obtain ⟨hstart, hend⟩ := h
  constructor
  · split at hstart
    · cases hstart
    · rename_i hne
      obtain ⟨p, hp, hrole⟩ := List.countP_pos_iff.1 (Nat.pos_of_ne_zero hne)
      exact ⟨p, hp, by simpa using hrole⟩
  · split at hend
    · rename_i hany
      simpa using hany
    · cases hend

structure StepSpec.Sound (known : List String) (step : StepSpec) : Prop where
  named : isBlankId step.id = false
  inputs : ∀ p ∈ step.inputs, p ∈ known
  outputs : ∀ p ∈ step.outputs, p ∈ known
  arity : arityProblems step = []
  nested : StepKind.flaws step.id step.outputs.length step.kind = []

theorem StepSpec.flaws_eq_nil {known seen : List String} {steps : List StepSpec}
    (h : StepSpec.flaws known seen steps = []) :
    (∀ step ∈ steps, step.Sound known ∧ step.id ∉ seen) ∧ (steps.map (·.id)).Nodup := by
  induction steps generalizing seen with
  | nil => simp
  | cons step rest ih =>
    obtain ⟨id, name, inputs, outputs, kind⟩ := step
    rw [StepSpec.flaws] at h
    split at h
    · cases h
    · rename_i hblank
      simp only [List.append_eq_nil_iff] at h
      obtain ⟨⟨⟨⟨hdup, hconn⟩, harity⟩, hnested⟩, hrest⟩ := h
      have hnew : id ∉ seen := fun hmem => by simp [hmem] at hdup
      have hknown : ∀ p ∈ inputs ++ outputs, p ∈ known := by
        simpa [connectorFlaws, List.filter_eq_nil_iff, or_imp, forall_and] using hconn
      obtain ⟨hsound, hnodup⟩ := ih hrest
      refine ⟨fun q hq => ?_, ?_⟩
      · rcases List.mem_cons.1 hq with rfl | hq
        · exact ⟨⟨by simpa using hblank, fun p hp => hknown p (List.mem_append_left _ hp),
            fun p hp => hknown p (List.mem_append_right _ hp),
            by simpa [arityFlaws] using harity, hnested⟩, hnew⟩
        · obtain ⟨hs, hns⟩ := hsound q hq
          exact ⟨hs, fun hmem => hns (List.mem_cons_of_mem _ hmem)⟩
      · rw [List.map_cons, List.nodup_cons]
        refine ⟨fun hmem => ?_, hnodup⟩
        obtain ⟨q, hq, hid⟩ := List.mem_map.1 hmem
        exact (hsound q hq).2 (hid ▸ List.mem_cons_self)

structure Plan.Sound (p : Plan) : Prop where
  distinctPlaces : (p.places.map (·.id)).Nodup
  start : ∃ place ∈ p.places, place.role = .start
  distinctSteps : (p.steps.map (·.id)).Nodup
  steps : ∀ step ∈ p.steps, step.Sound (placeIds p.places)

theorem Plan.sound_of_flaws {p : Plan} (h : p.flaws = []) : p.Sound := by
  obtain ⟨id, version, places, steps⟩ := p
  rw [Plan.flaws] at h
  split at h
  · cases h
  · simp only [List.append_eq_nil_iff] at h
    obtain ⟨⟨hplaces, hroles⟩, hsteps⟩ := h
    obtain ⟨hsound, hnodup⟩ := StepSpec.flaws_eq_nil hsteps
    exact ⟨(placeFlaws_eq_nil hplaces).2, (roleFlaws_eq_nil hroles).1, hnodup,
      fun step hstep => (hsound step hstep).1⟩

theorem Plan.validate_ok {p : Plan} : p.validate = .ok () ↔ p.flaws = [] := by
  unfold Plan.validate
  cases p.flaws <;> simp

/-- The results of a nested plan without flaws reach outputs of its step. -/
theorem StepKind.nested_flaws_eq_nil {id : String} {outputs : Nat} {plan : Plan}
    {results : ResultMap} (h : StepKind.flaws id outputs (.nested plan results) = []) :
    plan.flaws = [] ∧ ∀ place ∈ plan.terminals, ∃ output,
      (OutputMap.of plan results).output? place.id = some output ∧ output < outputs := by
  obtain ⟨pid, version, places, steps⟩ := plan
  rw [StepKind.flaws] at h
  split at h
  · rename_i hnone
    refine ⟨hnone, fun place hplace => ?_⟩
    have hthis := List.filterMap_eq_nil_iff.1 h place hplace
    split at hthis
    · cases hthis
    · rename_i output hout
      refine ⟨output, hout, ?_⟩
      by_contra hge
      simp [hge] at hthis
  · rename_i found
    simp only [List.map_eq_nil_iff] at h
    exact absurd h found

end RecipeNet
