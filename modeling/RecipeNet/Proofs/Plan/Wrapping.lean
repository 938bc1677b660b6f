import RecipeNet.Proofs.Net.Act

/-!
Plans that do nothing but run another one: a start place, a step with the other plan, and
for each terminal place of that plan one of its own, in the same order. Such a plan is as
sound as the one within.
-/

namespace RecipeNet

/-- Terminal places that are told apart by their ids have the outputs of their own entries. -/
theorem OutputMap.output?_of {plan : Plan} {results : ResultMap}
    (distinct : (plan.terminals.map (·.id)).Nodup) {i : Nat} {place : PlaceSpec}
    (h : plan.terminals[i]? = some place) :
    (OutputMap.of plan results).output? place.id = ( entry? results i place).map (·.2) := by
  have hown : ∀ output, (place.id, output) ∈ (OutputMap.of plan results).outputs →
      entry? results i place = some (place.id, output) := by
    intro output hmem
    obtain ⟨⟨other, j⟩, hother, hsome⟩ := List.mem_filterMap.1 hmem
    have hj := List.mem_zipIdx_iff_getElem?.1 hother
    obtain ⟨found, -, heq⟩ := Option.map_eq_some_iff.1 hsome
    have hid : other.id = place.id := (Prod.mk.inj heq).1
    have hlt : j < (plan.terminals.map (·.id)).length := by
      rw [List.length_map]
      exact (List.getElem?_eq_some_iff.1 hj).1
    have hsame : (plan.terminals.map (·.id))[j]? = (plan.terminals.map (·.id))[i]? := by
      rw [List.getElem?_map, List.getElem?_map, hj, h, Option.map_some, Option.map_some, hid]
    obtain rfl := (List.getElem?_inj hlt distinct).1 hsame
    obtain rfl := Option.some.inj (hj.symm.trans h)
    exact hsome
  cases hlookup : (OutputMap.of plan results).output? place.id with
  | some output =>
    obtain ⟨front, back, hsplit, -⟩ := List.lookup_eq_some_iff.1 hlookup
    have hmem : (place.id, output) ∈ (OutputMap.of plan results).outputs.reverse := by
      rw [hsplit]
      exact List.mem_append_right _ List.mem_cons_self
    rw [hown output (List.mem_reverse.1 hmem)]
    rfl
  | none =>
    cases hentry : entry? results i place with
    | none => rfl
    | some entry =>
      obtain ⟨output, -, rfl⟩ := Option.map_eq_some_iff.1 hentry
      have hmem : (place.id, output) ∈ (OutputMap.of plan results).outputs :=
        List.mem_filterMap.2 ⟨(place, i), List.mem_zipIdx_iff_getElem?.2 h, hentry⟩
      have hnone := List.lookup_eq_none_iff.1 hlookup _ (List.mem_reverse.2 hmem)
      exact absurd rfl (bne_iff_ne.1 hnone)

/-- Without explicit results the terminal places take the outputs in order. -/
theorem OutputMap.output?_of_empty {plan : Plan} (distinct : (plan.terminals.map (·.id)).Nodup)
    {i : Nat} {place : PlaceSpec} (h : plan.terminals[i]? = some place) :
    (OutputMap.of plan .empty).output? place.id = some i :=
  output?_of distinct h

theorem Plan.exists_terminal {p : Plan} (h : p.flaws = []) : p.terminals ≠ [] := by
  obtain ⟨id, version, places, steps⟩ := p
  rw [Plan.flaws] at h
  split at h
  · cases h
  · simp only [List.append_eq_nil_iff] at h
    obtain ⟨-, place, hplace, hterminal⟩ := roleFlaws_eq_nil h.1.2
    exact List.ne_nil_of_mem (List.mem_filter.2 ⟨hplace, hterminal⟩)

theorem Plan.distinct_terminals {p : Plan} (h : p.flaws = []) : (p.terminals.map (·.id)).Nodup :=
  (List.filter_sublist.map _).nodup (Plan.sound_of_flaws h).distinctPlaces

/-- Places without flaws. -/
theorem placeFlaws_of_sound {seen : List String} {places : List PlaceSpec}
    (named : ∀ p ∈ places, isBlankId p.id = false) (apart : ∀ p ∈ places, p.id ∉ seen)
    (distinct : (places.map (·.id)).Nodup) : placeFlaws seen places = [] := by
  induction places generalizing seen with
  | nil => rfl
  | cons p rest ih =>
    obtain ⟨hnew, hrest⟩ := List.nodup_cons.1 distinct
    have hblank : ¬ isBlankId p.id = true := by
      rw [named p List.mem_cons_self]
      exact Bool.false_ne_true
    rw [placeFlaws, if_neg hblank, if_neg (apart p List.mem_cons_self)]
    apply ih
    · exact fun q hq => named q (List.mem_cons_of_mem _ hq)
    · intro q hq hmem
      rcases List.mem_cons.1 hmem with heq | hseen
      · exact hnew (List.mem_map.2 ⟨q, hq, heq⟩)
      · exact apart q (List.mem_cons_of_mem _ hq) hseen
    · exact hrest

/-- What surrounds a plan that another one runs: the step, and the places around it. -/
structure Wrapping where
  id : String
  version : UInt32
  step : String
  name : Option String
  start : PlaceSpec
  ends : List PlaceSpec

namespace Wrapping

variable {x : Wrapping} {w : Plan}

def entry (x : Wrapping) : PlaceSpec := { x.start with role := .start }

def terminal (place : PlaceSpec) : PlaceSpec := { place with role := .terminal }

def places (x : Wrapping) : List PlaceSpec :=
  x.entry :: x.ends.map terminal

def plan (x : Wrapping) (w : Plan) : Plan where
  id := x.id
  version := x.version
  places := x.places
  steps := [⟨x.step, x.name, [x.start.id], x.ends.map (·.id), .nested w .empty⟩]

/-- The terminal places are those after the step. -/
theorem terminals_plan (x : Wrapping) (w : Plan) : (x.plan w).terminals = x.ends.map terminal := by
  show (x.entry :: x.ends.map terminal).filter (·.isTerminal) = _
  have hentry : ¬ x.entry.isTerminal = true := Bool.false_ne_true
  rw [List.filter_cons_of_neg hentry, List.filter_eq_self]
  intro place hplace
  obtain ⟨other, -, rfl⟩ := List.mem_map.1 hplace
  rfl

/-- The names are fit for a plan, and there is one end for each of the plan within. -/
structure Suits (x : Wrapping) (w : Plan) : Prop where
  length : x.ends.length = w.terminals.length
  distinct : (x.places.map (·.id)).Nodup
  named : ∀ place ∈ x.places, isBlankId place.id = false
  step : isBlankId x.step = false

theorem mem_entry : x.entry ∈ x.places := List.mem_cons_self

theorem mem_ends {place : PlaceSpec} (h : place ∈ x.ends) : terminal place ∈ x.places :=
  List.mem_cons_of_mem _ (List.mem_map_of_mem h)

theorem Suits.ends_ne_nil (h : x.Suits w) (sound : w.flaws = []) : x.ends ≠ [] := by
  intro hnone
  have hlength := h.length
  rw [hnone, List.length_nil] at hlength
  exact Plan.exists_terminal sound (List.length_eq_zero_iff.1 hlength.symm)

theorem Suits.known (h : x.Suits w) {place : PlaceSpec} (hplace : place ∈ x.places) :
    place.id ∈ placeIds x.places := by
  refine List.mem_filter.2 ⟨List.mem_map_of_mem hplace, ?_⟩
  rw [h.named place hplace]
  rfl

/-- There is one start place, and there are terminal places. -/
theorem Suits.roles (h : x.Suits w) (sound : w.flaws = []) : roleFlaws x.places = [] := by
  have hnone : (x.ends.map terminal).countP (·.role == .start) = 0 := by
    refine List.countP_eq_zero.2 fun place hplace => ?_
    obtain ⟨other, -, rfl⟩ := List.mem_map.1 hplace
    exact Bool.false_ne_true
  have hstarts : x.places.countP (·.role == .start) = 1 := by
    rw [places, List.countP_cons, hnone]
    rfl
  obtain ⟨place, hplace⟩ := List.exists_mem_of_ne_nil _ (h.ends_ne_nil sound)
  have hends : x.places.any (·.isTerminal) = true :=
    List.any_eq_true.2 ⟨terminal place, mem_ends hplace, rfl⟩
  unfold roleFlaws
  rw [hstarts, hends]
  rfl

/-- Every terminal place of the plan within leads to an output. -/
theorem Suits.outputs (h : x.Suits w) (sound : w.flaws = []) :
    StepKind.flaws x.step x.ends.length (.nested w .empty) = [] := by
  have hall : outputFlaws x.step x.ends.length w .empty = [] := by
    refine List.filterMap_eq_nil_iff.2 fun place hplace => ?_
    obtain ⟨i, hi⟩ := List.mem_iff_getElem?.1 hplace
    obtain ⟨hlt, -⟩ := List.getElem?_eq_some_iff.1 hi
    rw [OutputMap.output?_of_empty (Plan.distinct_terminals sound) hi]
    exact if_pos (by rw [h.length]; exact hlt)
  obtain ⟨id, version, places, steps⟩ := w
  rw [StepKind.flaws, sound]
  exact hall

/-- A plan that runs a sound one is sound. -/
theorem Suits.sound (h : x.Suits w) (sound : w.flaws = []) : (x.plan w).flaws = [] := by
  have hplaces : placeFlaws [] x.places = [] :=
    placeFlaws_of_sound h.named (fun _ _ => List.not_mem_nil) h.distinct
  have hconnectors : connectorFlaws (placeIds x.places)
      ⟨x.step, x.name, [x.start.id], x.ends.map (·.id), .nested w .empty⟩ = [] := by
    refine List.map_eq_nil_iff.2 (List.filter_eq_nil_iff.2 fun id hid => ?_)
    have hknown : id ∈ placeIds x.places := by
      rcases List.mem_cons.1 hid with rfl | hend
      · have hentry := h.known mem_entry
        exact hentry
      · obtain ⟨place, hplace, rfl⟩ := List.mem_map.1 hend
        have hterminal := h.known (mem_ends hplace)
        exact hterminal
    simpa using hknown
  have harity : arityFlaws
      ⟨x.step, x.name, [x.start.id], x.ends.map (·.id), .nested w .empty⟩ = [] := by
    have hends : x.ends.length ≠ 0 := fun hzero =>
      h.ends_ne_nil sound (List.length_eq_zero_iff.1 hzero)
    simp only [arityFlaws, arityProblems, List.length_map, List.length_singleton, if_true,
      if_neg hends, List.append_nil, List.map_nil]
  have hstep : ¬ isBlankId x.step = true := by
    rw [h.step]
    exact Bool.false_ne_true
  rw [plan, Plan.flaws, hplaces, h.roles sound]
  simp only [StepSpec.flaws, if_neg hstep, hconnectors, harity, List.length_map, h.outputs sound]
  rfl

end Wrapping
end RecipeNet
