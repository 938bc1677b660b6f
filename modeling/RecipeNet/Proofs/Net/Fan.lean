import Mathlib.Data.List.Sigma
import RecipeNet.Proofs.Invisibility
import RecipeNet.Proofs.Plan.WellFormed
import RecipeNet.Proofs.Snapshot.RoundTrip

/-!
Plans that part their work and bring it together again: a split makes a sibling of the start
token for each of several tasks, and a join makes the siblings the start token again, which
ends the run. A net that is built of such a plan has each step and each place at a position of
its own, and each place but the last is read by one input.
-/

namespace RecipeNet

theorem findIdx?_congr {α : Type} {P Q : α → Bool} {xs : List α} (h : ∀ x ∈ xs, P x = Q x) :
    xs.findIdx? P = xs.findIdx? Q := by
  induction xs with
  | nil => rfl
  | cons x xs ih =>
    obtain ⟨hfirst, hrest⟩ := List.forall_mem_cons.1 h
    rw [List.findIdx?_cons, List.findIdx?_cons, hfirst, ih hrest]

/-- A task between a split and a join, with the places before and after it. -/
structure Branch where
  todo : String
  task : String
  activity : String
  done : String

/-- The names that a plan has for the parts of a fan. The branches are listed as the split
has them, and the join may read the places behind them in another order. -/
structure Fan where
  start : String
  split : String
  branches : List Branch
  join : String
  reads : List String
  terminal : String

namespace Fan

def places (fan : Fan) : List String :=
  fan.start :: fan.terminal :: (fan.branches.map (·.todo) ++ fan.branches.map (·.done))

def steps (fan : Fan) : List (String × List String × List String × StepKind) :=
  (fan.split, [fan.start], fan.branches.map (·.todo), .split) ::
    (fan.join, fan.reads, [fan.terminal], .join) ::
    fan.branches.map fun branch => (branch.task, [branch.todo], [branch.done], .task branch.activity)

structure Named (fan : Fan) : Prop where
  places : ∀ id ∈ fan.places, Shows id
  distinctPlaces : fan.places.Nodup
  steps : ∀ step ∈ fan.steps, Shows step.1
  distinctSteps : (fan.steps.map (·.1)).Nodup

theorem mem_places (fan : Fan) : fan.start ∈ fan.places ∧ fan.terminal ∈ fan.places ∧
    (∀ branch ∈ fan.branches, branch.todo ∈ fan.places ∧ branch.done ∈ fan.places) := by
  refine ⟨List.mem_cons_self, List.mem_cons_of_mem _ List.mem_cons_self, fun branch h => ⟨?_, ?_⟩⟩
  · exact List.mem_cons_of_mem _ (List.mem_cons_of_mem _ (List.mem_append_left _ (List.mem_map_of_mem h)))
  · exact List.mem_cons_of_mem _ (List.mem_cons_of_mem _ (List.mem_append_right _ (List.mem_map_of_mem h)))

end Fan

/-- A plan that consists of a fan. It may declare the parts in any order. -/
structure Plan.Fans (plan : Plan) (fan : Fan) : Prop where
  some : fan.branches ≠ []
  inputs : fan.reads.Perm (fan.branches.map (·.done))
  places : (plan.places.map (·.id)).Perm fan.places
  start : ∀ place ∈ plan.places, place.role = .start ↔ place.id = fan.start
  terminal : ∀ place ∈ plan.places, place.role = .terminal ↔ place.id = fan.terminal
  steps : (plan.steps.map fun step => (step.id, step.inputs, step.outputs, step.kind)).Perm fan.steps

namespace Plan.Fans

variable {plan : Plan} {fan : Fan}

theorem placesFit (h : plan.Fans fan) (named : fan.Named) : PlacesFit plan.places where
  some := by
    intro hnone
    have hlength := h.places.length_eq
    rw [hnone] at hlength
    cases hlength
  named := fun place hplace => named.places _ (h.places.mem_iff.1 (List.mem_map_of_mem hplace))
  distinct := h.places.nodup_iff.2 named.distinctPlaces
  start := by
    have hcount := List.count_eq_one_of_mem named.distinctPlaces fan.mem_places.1
    rw [← h.places.count_eq, List.count_eq_countP, List.countP_map, List.countP_eq_length_filter] at hcount
    rw [← hcount]
    refine congrArg List.length (List.filter_congr fun place hplace => ?_)
    exact Bool.eq_iff_iff.2 (by simpa using h.start place hplace)
  terminal := by
    obtain ⟨place, hplace, hid⟩ := List.mem_map.1 (h.places.mem_iff.2 fan.mem_places.2.1)
    exact ⟨place, hplace, (h.terminal place hplace).2 hid⟩

/-- What kinds of steps a fan has. -/
theorem step (h : plan.Fans fan) {step : StepSpec} (hstep : step ∈ plan.steps) :
    (step.id, step.inputs, step.outputs, step.kind) ∈ fan.steps ∧
      (step.inputs = [fan.start] ∧ step.outputs = fan.branches.map (·.todo) ∧ step.kind = .split ∨
        step.inputs = fan.reads ∧ step.outputs = [fan.terminal] ∧ step.kind = .join ∨
        ∃ branch ∈ fan.branches, step.inputs = [branch.todo] ∧ step.outputs = [branch.done] ∧
          step.kind = .task branch.activity) := by
  have hmem := h.steps.mem_iff.1 (List.mem_map_of_mem hstep)
  refine ⟨hmem, ?_⟩
  rcases List.mem_cons.1 hmem with hsplit | hmem
  · simp only [Prod.mk.injEq] at hsplit
    exact .inl hsplit.2
  rcases List.mem_cons.1 hmem with hjoin | hmem
  · simp only [Prod.mk.injEq] at hjoin
    exact .inr (.inl hjoin.2)
  · obtain ⟨branch, hbranch, htask⟩ := List.mem_map.1 hmem
    simp only [Prod.mk.injEq] at htask
    exact .inr (.inr ⟨branch, hbranch, htask.2.1.symm, htask.2.2.1.symm, htask.2.2.2.symm⟩)

theorem stepFits (h : plan.Fans fan) (named : fan.Named) {step : StepSpec} (hstep : step ∈ plan.steps) :
    StepFits plan.places step := by
  have hplaces : ∀ id ∈ fan.places, ∃ place ∈ plan.places, place.id = id :=
    fun id hid => List.mem_map.1 (h.places.mem_iff.2 hid)
  obtain ⟨hstart, hterminal, hbranches⟩ := fan.mem_places
  have hsome := List.length_pos_iff.2 h.some
  obtain ⟨hmem, hkind⟩ := h.step hstep
  refine ⟨named.steps _ hmem, fun id hid => hplaces id ?_, ?_, fun inner results hnested => ?_⟩
  · rcases hkind with ⟨hins, houts, -⟩ | ⟨hins, houts, -⟩ | ⟨branch, hbranch, hins, houts, -⟩
    · rw [hins, houts, List.singleton_append, List.mem_cons] at hid
      rcases hid with rfl | hid
      · exact hstart
      · obtain ⟨branch, hbranch, rfl⟩ := List.mem_map.1 hid
        exact (hbranches branch hbranch).1
    · rw [hins, houts, List.mem_append, List.mem_singleton] at hid
      rcases hid with hid | rfl
      · obtain ⟨branch, hbranch, rfl⟩ := List.mem_map.1 (h.inputs.mem_iff.1 hid)
        exact (hbranches branch hbranch).2
      · exact hterminal
    · rw [hins, houts, List.singleton_append, List.mem_cons, List.mem_singleton] at hid
      rcases hid with rfl | rfl
      · exact (hbranches branch hbranch).1
      · exact (hbranches branch hbranch).2
  · rcases hkind with ⟨hins, houts, hkind⟩ | ⟨hins, houts, hkind⟩ | ⟨branch, -, hins, houts, hkind⟩
    · rw [hins, houts, hkind, List.length_map]
      exact ⟨rfl, hsome⟩
    · rw [hins, houts, hkind, h.inputs.length_eq, List.length_map]
      exact ⟨hsome, rfl⟩
    · rw [hins, houts, hkind]
      exact ⟨rfl, Nat.one_pos⟩
  · rcases hkind with ⟨-, -, hkind⟩ | ⟨-, -, hkind⟩ | ⟨_, -, -, -, hkind⟩ <;>
      cases hkind.symm.trans hnested

/-- A plan that consists of a fan is well-formed if the names are. -/
theorem wellFormed (h : plan.Fans fan) (named : fan.Named) : plan.WellFormed := by
  refine .intro (h.placesFit named) (fun step => h.stepFits named) ?_ fun step hstep inner results hnested => ?_
  · have hids : plan.steps.map (·.id) = (plan.steps.map fun step =>
        (step.id, step.inputs, step.outputs, step.kind)).map (·.1) := by
      rw [List.map_map]
      rfl
    rw [hids]
    exact (h.steps.map _).nodup_iff.2 named.distinctSteps
  · rcases (h.step hstep).2 with ⟨-, -, hkind⟩ | ⟨-, -, hkind⟩ | ⟨_, -, -, -, hkind⟩ <;>
      cases hkind.symm.trans hnested

end Plan.Fans

namespace Engine

section

variable {plan : Plan} {e : Engine} {i k p : Nat} {slot : Slot}

def placeAt (e : Engine) (id : String) : Nat := (placeIndex? e.holdings id).getD 0

def stepAt (e : Engine) (id : String) : Nat := (slotIndex? e.slots id).getD 0

def fitted (e : Engine) (step : StepSpec) : Slot where
  step := step.id
  inputs := step.inputs.map e.placeAt
  outputs := step.outputs.map e.placeAt
  phase := .initialized
  transition := .ofFitting .standard (.standard step)

theorem placeIndices_eq {ids : List String} {is : List Nat}
    (h : placeIndices e.holdings ids = .ok is) : is = ids.map e.placeAt := by
  have hat := placeIndices_ok h
  clear h
  induction hat with
  | nil => rfl
  | cons hfirst _ ih => rw [List.map_cons, ← ih, placeAt, hfirst, Option.getD_some]

/-- Each step of a new net has been made of a step of its plan. -/
theorem Built.step_at (h : Built .standard plan e) (hi : e.slots[i]? = some slot) :
    ∃ step ∈ plan.steps, slot = e.fitted step ∧ slotIndex? e.slots step.id = some i := by
  obtain ⟨step, hstep, hfit⟩ := forall₂_left_at h.slots hi
  obtain ⟨inputs, outputs, fitting, hin, hout, hfitting, rfl⟩ := fitSlot_ok.1 hfit
  obtain rfl := Except.ok.inj hfitting
  have hdistinct := (Fits.of_build (build_of_built h)).distinctSteps
  refine ⟨step, List.mem_of_getElem? hstep, ?_, findIdx?_name hdistinct hi⟩
  rw [placeIndices_eq hin, placeIndices_eq hout, fitted]

/-- Each step of the plan is where its name says. -/
theorem Built.stands (h : Built .standard plan e) {step : StepSpec} (hstep : step ∈ plan.steps) :
    slotIndex? e.slots step.id = some (e.stepAt step.id) ∧
      e.slots[e.stepAt step.id]? = some (e.fitted step) := by
  obtain ⟨slot, hs, hfit⟩ := exists_left_of_forall₂ h.slots.flip hstep
  obtain ⟨i, hi⟩ := List.mem_iff_getElem?.1 hs
  obtain ⟨other, hother, rfl, hindex⟩ := h.step_at hi
  obtain ⟨inputs, outputs, fitting, -, -, -, hsame⟩ := fitSlot_ok.1 hfit
  obtain rfl := List.inj_on_of_nodup_map (Plan.sound_of_flaws h.sound).distinctSteps hother hstep
    (congrArg Slot.step hsame)
  rw [stepAt, hindex]
  exact ⟨rfl, hi⟩

theorem Built.place_at (h : Built .standard plan e) {hold : Holding} (hp : e.holdings[p]? = some hold) :
    ∃ place ∈ plan.places, hold = .new place ∧ placeIndex? e.holdings place.id = some p := by
  have hdistinct : (e.holdings.map (·.place.id)).Nodup := by
    rw [h.holdings, List.map_map]
    exact (Plan.sound_of_flaws h.sound).distinctPlaces
  have hnew := hp
  rw [h.holdings, List.getElem?_map] at hnew
  obtain ⟨place, hplace, rfl⟩ := Option.map_eq_some_iff.1 hnew
  exact ⟨place, List.mem_of_getElem? hplace, rfl, findIdx?_name hdistinct hp⟩

theorem Built.lies (h : Built .standard plan e) {place : PlaceSpec} (hplace : place ∈ plan.places) :
    e.holdings[e.placeAt place.id]? = some (.new place) := by
  have hmem : Holding.new place ∈ e.holdings := by
    rw [h.holdings]
    exact List.mem_map_of_mem hplace
  obtain ⟨p, hp⟩ := List.mem_iff_getElem?.1 hmem
  obtain ⟨other, -, hsame, hindex⟩ := h.place_at hp
  obtain rfl : place = other := congrArg Holding.place hsame
  rwa [placeAt, hindex]

theorem Built.placeAt_inj (h : Built .standard plan e) {place other : PlaceSpec}
    (hplace : place ∈ plan.places) (hother : other ∈ plan.places)
    (hsame : e.placeAt place.id = e.placeAt other.id) : place = other := by
  have hlies := h.lies hplace
  rw [hsame, h.lies hother] at hlies
  exact (congrArg Holding.place (Option.some.inj hlies)).symm

theorem consumers_nodup (e : Engine) (p : Nat) : (e.consumers p).Nodup := by
  refine List.nodup_flatMap.2 ⟨fun ⟨slot, i⟩ _ => ?_, ?_⟩
  · have hsub : ((slot.inputs.zipIdx.filter (·.1 == p)).map (·.2)).Sublist
        (slot.inputs.zipIdx.map (·.2)) := List.filter_sublist.map _
    have hinputs := hsub.nodup (List.nodup_zipIdx_map_snd slot.inputs)
    refine List.Nodup.of_map (·.2) ?_
    rwa [List.map_map]
  · have hslots := List.pairwise_map.1 (List.nodup_zipIdx_map_snd e.slots)
    refine hslots.imp fun {x y} hne c hx hy => hne ?_
    obtain ⟨_, -, rfl⟩ := List.mem_map.1 hx
    obtain ⟨_, -, hsame⟩ := List.mem_map.1 hy
    exact (congrArg Prod.fst hsame).symm

theorem Built.spread_eq_zero (h : Built .standard plan e) : spread Holding.tokens e.holdings = 0 := by
  refine Multiset.eq_zero_of_forall_notMem fun x hx => ?_
  obtain ⟨hold, hp, ht⟩ := mem_spread.1 hx
  obtain ⟨place, -, rfl, -⟩ := h.place_at hp
  cases ht

/-- Who reads a place is a matter of the inputs. -/
theorem consumers_congr {other : Engine} (h : e.slots.map (·.inputs) = other.slots.map (·.inputs))
    (p : Nat) : e.consumers p = other.consumers p := by
  have hinputs : ∀ net : Engine, net.consumers p = (net.slots.map (·.inputs)).zipIdx.flatMap
      fun x => (x.1.zipIdx.filter (·.1 == p)).map fun y => (x.2, y.2) := by
    intro net
    rw [List.zipIdx_map, List.flatMap_map]
    rfl
  rw [hinputs, hinputs, h]

/-- A place that is read by one input only. -/
theorem consumers_eq_singleton (hi : e.slots[i]? = some slot) (hk : slot.inputs[k]? = some p)
    (only : ∀ j other k', e.slots[j]? = some other → other.inputs[k']? = some p → j = i ∧ k' = k) :
    e.consumers p = [(i, k)] := by
  refine List.perm_singleton.1 ((List.perm_ext_iff_of_nodup (e.consumers_nodup p)
    (List.nodup_singleton _)).2 fun ⟨j, k'⟩ => ?_)
  rw [List.mem_singleton, mem_consumers, Prod.mk.injEq]
  constructor
  · rintro ⟨other, hj, hk'⟩
    exact only j other k' hj hk'
  · rintro ⟨rfl, rfl⟩
    exact ⟨slot, hi, hk⟩

end

def splitSlot (base : Engine) (fan : Fan) : Slot where
  step := fan.split
  inputs := [base.placeAt fan.start]
  outputs := fan.branches.map (base.placeAt ·.todo)
  phase := .initialized
  transition := .split

def joinSlot (base : Engine) (fan : Fan) : Slot where
  step := fan.join
  inputs := fan.reads.map base.placeAt
  outputs := [base.placeAt fan.terminal]
  phase := .initialized
  transition := .join fan.reads.length []

def taskSlot (base : Engine) (branch : Branch) : Slot where
  step := branch.task
  inputs := [base.placeAt branch.todo]
  outputs := [base.placeAt branch.done]
  phase := .initialized
  transition := .task branch.activity []

structure Fanned (base : Engine) (fan : Fan) : Prop where
  built : Built .standard base.plan base
  fans : base.plan.Fans fan

namespace Fanned

variable {base : Engine} {fan : Fan} {branch other : Branch} {i j k p : Nat} {slot : Slot}

theorem of_step (h : base.Fanned fan) {id : String} {inputs outputs : List String} {kind : StepKind}
    (hmem : (id, inputs, outputs, kind) ∈ fan.steps) :
    slotIndex? base.slots id = some (base.stepAt id) ∧
      ∃ name, base.slots[base.stepAt id]? = some (base.fitted ⟨id, name, inputs, outputs, kind⟩) := by
  obtain ⟨⟨id, name, inputs, outputs, kind⟩, hstep, hsame⟩ := List.mem_map.1 (h.fans.steps.mem_iff.2 hmem)
  cases hsame
  obtain ⟨hindex, hat⟩ := h.built.stands hstep
  exact ⟨hindex, name, hat⟩

theorem split (h : base.Fanned fan) :
    base.slots[base.stepAt fan.split]? = some (base.splitSlot fan) := by
  obtain ⟨-, name, hat⟩ := h.of_step List.mem_cons_self
  rw [hat, fitted, List.map_map]
  rfl

theorem join (h : base.Fanned fan) :
    base.slots[base.stepAt fan.join]? = some (base.joinSlot fan) := by
  obtain ⟨-, name, hat⟩ := h.of_step (List.mem_cons_of_mem _ List.mem_cons_self)
  rw [hat]
  rfl

theorem task (h : base.Fanned fan) (hbranch : branch ∈ fan.branches) :
    base.slots[base.stepAt branch.task]? = some (base.taskSlot branch) := by
  obtain ⟨-, name, hat⟩ := h.of_step (List.mem_cons_of_mem _ (List.mem_cons_of_mem _
    (List.mem_map_of_mem hbranch)))
  exact hat

/-- Which steps there are. -/
theorem steps (h : base.Fanned fan) (hi : base.slots[i]? = some slot) :
    i = base.stepAt fan.split ∨ i = base.stepAt fan.join ∨
      ∃ branch ∈ fan.branches, i = base.stepAt branch.task := by
  obtain ⟨step, hstep, -, hindex⟩ := h.built.step_at hi
  obtain rfl : base.stepAt step.id = i := by rw [stepAt, hindex, Option.getD_some]
  have hmem := h.fans.steps.mem_iff.1 (List.mem_map_of_mem hstep)
  rcases List.mem_cons.1 hmem with hsplit | hmem
  · exact .inl (congrArg base.stepAt (congrArg Prod.fst hsplit))
  rcases List.mem_cons.1 hmem with hjoin | hmem
  · exact .inr (.inl (congrArg base.stepAt (congrArg Prod.fst hjoin)))
  · obtain ⟨branch, hbranch, htask⟩ := List.mem_map.1 hmem
    exact .inr (.inr ⟨branch, hbranch, congrArg base.stepAt (congrArg Prod.fst htask).symm⟩)

theorem known (h : base.Fanned fan) {id : String} (hid : id ∈ fan.places) :
    ∃ place ∈ base.plan.places, place.id = id :=
  List.mem_map.1 (h.fans.places.mem_iff.2 hid)

/-- The places of a fan are apart. -/
theorem apart (h : base.Fanned fan) : (base.placeAt fan.start :: base.placeAt fan.terminal ::
    (fan.branches.map (base.placeAt ·.todo) ++ fan.branches.map (base.placeAt ·.done))).Nodup := by
  have hids : fan.places.Nodup :=
    h.fans.places.nodup_iff.1 (Plan.sound_of_flaws h.built.sound).distinctPlaces
  have hmap : (fan.places.map base.placeAt).Nodup := by
    refine hids.map_on fun a ha b hb hsame => ?_
    obtain ⟨place, hplace, rfl⟩ := h.known ha
    obtain ⟨other, hother, rfl⟩ := h.known hb
    rw [h.built.placeAt_inj hplace hother hsame]
  simpa [Fan.places, Function.comp_def] using hmap

theorem todos_nodup (h : base.Fanned fan) : (fan.branches.map (base.placeAt ·.todo)).Nodup :=
  (List.nodup_append.1 (List.nodup_cons.1 (List.nodup_cons.1 h.apart).2).2).1

/-- The join reads the places behind the tasks. -/
theorem inputs (h : base.Fanned fan) :
    (fan.reads.map base.placeAt).Perm (fan.branches.map (base.placeAt ·.done)) := by
  have hinputs := h.fans.inputs.map base.placeAt
  rwa [List.map_map] at hinputs

theorem reads_some (h : base.Fanned fan) : fan.reads.map base.placeAt ≠ [] := by
  intro hnil
  have hnone := h.inputs
  rw [hnil, List.nil_perm, List.map_eq_nil_iff] at hnone
  exact h.fans.some hnone

theorem reads_nodup (h : base.Fanned fan) : (fan.reads.map base.placeAt).Nodup :=
  h.inputs.nodup_iff.2 (List.nodup_append.1 (List.nodup_cons.1 (List.nodup_cons.1 h.apart).2).2).2.1

/-- Branches have tasks of their own. -/
theorem task_inj (h : base.Fanned fan) (hbranch : branch ∈ fan.branches) (hother : other ∈ fan.branches)
    (hsame : base.stepAt branch.task = base.stepAt other.task) : branch = other := by
  have hat := h.task hbranch
  rw [hsame, h.task hother] at hat
  have hinputs := congrArg Slot.inputs (Option.some.inj hat)
  exact List.inj_on_of_nodup_map h.todos_nodup hbranch hother (List.singleton_inj.1 hinputs).symm

/-- The terminal place is none of the others. -/
theorem before_terminal (h : base.Fanned fan) : base.placeAt fan.start ≠ base.placeAt fan.terminal ∧
    ∀ branch ∈ fan.branches, base.placeAt branch.todo ≠ base.placeAt fan.terminal ∧
      base.placeAt branch.done ≠ base.placeAt fan.terminal := by
  obtain ⟨hstart, hrest⟩ := List.nodup_cons.1 h.apart
  obtain ⟨hterminal, -⟩ := List.nodup_cons.1 hrest
  refine ⟨fun heq => hstart (heq ▸ List.mem_cons_self), fun branch hbranch => ⟨fun heq => ?_, fun heq => ?_⟩⟩
  · exact hterminal (List.mem_append_left _ (List.mem_map.2 ⟨branch, hbranch, heq⟩))
  · exact hterminal (List.mem_append_right _ (List.mem_map.2 ⟨branch, hbranch, heq⟩))

theorem start (h : base.Fanned fan) : base.startPlace = base.placeAt fan.start := by
  refine congrArg (·.getD 0) (findIdx?_congr fun hold hmem => ?_)
  obtain ⟨p, hp⟩ := List.mem_iff_getElem?.1 hmem
  obtain ⟨place, hplace, rfl, -⟩ := h.built.place_at hp
  exact Bool.eq_iff_iff.2 (by simpa [Holding.new] using h.fans.start place hplace)

/-- Whatever lies in the places, the terminal one is where its name says. -/
theorem ends_at (h : base.Fanned fan) {hs : List Holding}
    (places : hs.map (·.place) = base.holdings.map (·.place)) {hold : Holding}
    (hp : hs[p]? = some hold) : (hold.isTerminal = true ↔ p = base.placeAt fan.terminal) ∧
      (hold.place.id = fan.terminal ↔ p = base.placeAt fan.terminal) := by
  have hsame := congrArg (fun ps : List PlaceSpec => ps[p]?) places
  simp only [List.getElem?_map, hp, Option.map_some] at hsame
  obtain ⟨old, hold', hold'_place⟩ := Option.map_eq_some_iff.1 hsame.symm
  obtain ⟨place, hplace, rfl, hindex⟩ := h.built.place_at hold'
  obtain rfl : base.placeAt place.id = p := by rw [placeAt, hindex, Option.getD_some]
  obtain rfl : place = hold.place := hold'_place
  obtain ⟨last, hlast, hid⟩ := h.known fan.mem_places.2.1
  have hname : hold.place.id = fan.terminal ↔
      base.placeAt hold.place.id = base.placeAt fan.terminal := by
    refine ⟨congrArg base.placeAt, fun hsame => ?_⟩
    rw [← hid] at hsame ⊢
    rw [h.built.placeAt_inj hplace hlast hsame]
  refine ⟨?_, hname⟩
  rw [← hname, ← h.fans.terminal hold.place hplace]
  simp [Holding.isTerminal, PlaceSpec.isTerminal]

/-- Which places are read, and by whom. -/
theorem reads (h : base.Fanned fan) (hi : base.slots[i]? = some slot) (hk : slot.inputs[k]? = some p) :
    (p = base.placeAt fan.start ∧ i = base.stepAt fan.split ∧ k = 0) ∨
      (∃ branch ∈ fan.branches, p = base.placeAt branch.todo ∧ i = base.stepAt branch.task ∧ k = 0) ∨
      ((fan.reads.map base.placeAt)[k]? = some p ∧ i = base.stepAt fan.join) := by
  rcases h.steps hi with rfl | rfl | ⟨branch, hbranch, rfl⟩
  · cases hi.symm.trans h.split
    obtain ⟨rfl, hp⟩ := Option.ite_none_right_eq_some.1 (List.getElem?_singleton.symm.trans hk)
    exact .inl ⟨(Option.some.inj hp).symm, rfl, rfl⟩
  · cases hi.symm.trans h.join
    exact .inr (.inr ⟨hk, rfl⟩)
  · cases hi.symm.trans (h.task hbranch)
    obtain ⟨rfl, hp⟩ := Option.ite_none_right_eq_some.1 (List.getElem?_singleton.symm.trans hk)
    exact .inr (.inl ⟨branch, hbranch, (Option.some.inj hp).symm, rfl, rfl⟩)

theorem consumers_start (h : base.Fanned fan) :
    base.consumers (base.placeAt fan.start) = [(base.stepAt fan.split, 0)] := by
  obtain ⟨hstart, -⟩ := List.nodup_cons.1 h.apart
  refine consumers_eq_singleton h.split rfl fun j slot k' hj hk' => ?_
  rcases h.reads hj hk' with ⟨-, rfl, rfl⟩ | ⟨branch, hbranch, hp, -⟩ | ⟨hp, -⟩
  · exact ⟨rfl, rfl⟩
  · refine absurd (hp ▸ ?_) hstart
    exact List.mem_cons_of_mem _ (List.mem_append_left _ (List.mem_map_of_mem hbranch))
  · have hdone := h.inputs.mem_iff.1 (List.mem_of_getElem? hp)
    exact absurd (List.mem_cons_of_mem _ (List.mem_append_right _ hdone)) hstart

theorem consumers_todo (h : base.Fanned fan) (hbranch : branch ∈ fan.branches) :
    base.consumers (base.placeAt branch.todo) = [(base.stepAt branch.task, 0)] := by
  obtain ⟨hstart, hnodup⟩ := List.nodup_cons.1 h.apart
  obtain ⟨-, -, happart⟩ := List.nodup_append.1 (List.nodup_cons.1 hnodup).2
  have htodo : base.placeAt branch.todo ∈ fan.branches.map (base.placeAt ·.todo) :=
    List.mem_map_of_mem hbranch
  refine consumers_eq_singleton (h.task hbranch) rfl fun j slot k' hj hk' => ?_
  rcases h.reads hj hk' with ⟨hp, -⟩ | ⟨other, hother, hp, rfl, rfl⟩ | ⟨hp, -⟩
  · exact absurd (hp ▸ List.mem_cons_of_mem _ (List.mem_append_left _ htodo)) hstart
  · obtain rfl := List.inj_on_of_nodup_map h.todos_nodup hother hbranch hp.symm
    exact ⟨rfl, rfl⟩
  · exact absurd rfl (happart _ htodo _ (h.inputs.mem_iff.1 (List.mem_of_getElem? hp)))

theorem consumers_done (h : base.Fanned fan)
    (hk : (fan.reads.map base.placeAt)[k]? = some (base.placeAt branch.done)) :
    base.consumers (base.placeAt branch.done) = [(base.stepAt fan.join, k)] := by
  obtain ⟨hstart, hnodup⟩ := List.nodup_cons.1 h.apart
  obtain ⟨-, -, happart⟩ := List.nodup_append.1 (List.nodup_cons.1 hnodup).2
  have hmem := h.inputs.mem_iff.1 (List.mem_of_getElem? hk)
  refine consumers_eq_singleton h.join hk fun j slot k' hj hk' => ?_
  rcases h.reads hj hk' with ⟨hp, -⟩ | ⟨other, hother, hp, -⟩ | ⟨hp, rfl⟩
  · exact absurd (hp ▸ List.mem_cons_of_mem _ (List.mem_append_right _ hmem)) hstart
  · exact absurd hp.symm (happart _ (List.mem_map_of_mem hother) _ hmem)
  · have hlt := (List.getElem?_eq_some_iff.1 hp).1
    exact ⟨rfl, (List.getElem?_inj hlt h.reads_nodup).1 (hp.trans hk.symm)⟩

end Fanned

end Engine
end RecipeNet
