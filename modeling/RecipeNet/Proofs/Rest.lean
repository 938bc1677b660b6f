import RecipeNet.Proofs.Invisibility
import RecipeNet.Proofs.Safety

/-!
Nets at rest. When an operation leaves a net running, nothing lies in the input places
of its steps but what a join or a nested plan has to wait for, at every depth. No notice
is lost: what waits behind a nested plan goes in when the plan has ended.
-/

namespace RecipeNet.Engine

variable {fitter : Fitter} {plan : Plan} {e : Engine}

def EmptyAt (e : Engine) (p : Nat) : Prop := ∃ hold, e.holdings[p]? = some hold ∧ hold.tokens = []

/-- A running net in which no step that takes whatever it is offered has anything left
to take. Only joins and steps that run a nested net are not of that kind. -/
structure AtRest (e : Engine) : Prop where
  running : e.status = .running
  served : ∀ slot ∈ e.slots, slot.transition.eager = true → ∀ p ∈ slot.inputs, e.EmptyAt p

theorem Brisk.atRest (hf : fitter.Regular) (h : e.Brisk [] [] []) (fits : e.Fits fitter) :
    e.AtRest := by
  refine ⟨h.running, fun slot hs heager p hp => ?_⟩
  obtain ⟨i, hi⟩ := List.mem_iff_getElem?.1 hs
  obtain ⟨k, hk⟩ := List.mem_iff_getElem?.1 hp
  have hat := List.getElem?_eq_getElem ((fits.slot hf hs).inputs p hp)
  refine ⟨_, hat, List.eq_nil_iff_forall_not_mem.2 fun t ht => ?_⟩
  have hserved := h.served i slot List.not_mem_nil hi heager k p hk t.id
  have hstock : (p, t.id) ∈ stock e.holdings := mem_stock.2 ⟨_, hat, t, ht, rfl⟩
  exact absurd (Multiset.count_pos.2 hstock) (Nat.not_lt.2 hserved)

/-- A call changes no outline. -/
theorem Steady.outline_answer (hf : fitter.Regular) (h : e.Steady fitter plan) {fuel : Nat}
    {s : Supply} {call : Call} {run : Run} (hrun : e.answer fuel s call = some run) :
    run.engine.outline = e.outline := by
  rcases h.answer hf hrun with ⟨f, -, rfl⟩ | ⟨-, hproper⟩
  · rfl
  obtain ⟨lore, hcourse⟩ := hproper.course
  have hopened : (e.opened call).outline = e.outline := by
    rcases opened_cases e call with hsame | ⟨t, -, -, hentered⟩
    · rw [hsame]
    · rw [hentered]
      exact outline_entered e t
  exact hcourse.keeps (P := fun sc => sc.engine.outline = e.outline)
    (fun act ha => act.outline.trans ha) hopened

/-- A net that is left running is at rest, at every depth. If a step has been running a
nested net, then it does so still, for the same token or for the next, or nothing is left
that has been waiting for it. -/
theorem running_at_rest (hf : fitter.Regular) (h : Reachable World.careless fitter plan e) :
    (e.status = .running → e.Throughout AtRest) ∧
    ∀ fuel s call run, e.answer fuel s call = some run → run.engine.status = .running →
      run.engine.Throughout AtRest ∧
      ∀ (i : Nat) (slot : Slot) (nest : Nest) (t : Token) (child : Engine), e.slots[i]? = some slot →
        slot.transition = .busy nest t child → ∃ after, run.engine.slots[i]? = some after ∧
          after.inputs = slot.inputs ∧
          ((∃ t' child', after.transition = .busy nest t' child' ∧ child'.status = .running) ∨
            after.transition = .idle nest ∧ ∀ p ∈ after.inputs, run.engine.EmptyAt p) := by
  have hrest : ∀ {e : Engine}, e.Steady fitter plan → e.status = .running →
      e.Throughout AtRest := fun {e} hsteady hrunning =>
    ((hsteady.running hrunning).and hsteady.fits).imp fun e he => he.1.atRest hf he.2
  have hsteady := h.steady hf
  refine ⟨hrest hsteady, fun fuel s call run hrun hrunning => ?_⟩
  have hall := hrest (hsteady.called hf hrun) hrunning
  refine ⟨hall, fun i slot nest t child hi hbusy => ?_⟩
  have hold := outline_at hi
  rw [← hsteady.outline_answer hf hrun] at hold
  change (run.engine.slots.map Slot.outline)[i]? = _ at hold
  rw [List.getElem?_map] at hold
  obtain ⟨after, hat, hsame⟩ := Option.map_eq_some_iff.1 hold
  have hmem := List.mem_of_getElem? hat
  have hkind : after.transition.outline = .idle nest := by
    have htr := congrArg Slot.transition hsame
    change after.transition.outline = slot.transition.outline at htr
    rw [htr, hbusy]
    rfl
  have hinputs := congrArg Slot.inputs hsame
  refine ⟨after, hat, hinputs, ?_⟩
  cases htr : after.transition with
  | idle nest' =>
    rw [htr] at hkind
    cases hkind
    exact .inr ⟨rfl, hall.here.served after hmem (by rw [htr]; rfl)⟩
  | busy nest' t' child' =>
    rw [htr] at hkind
    cases hkind
    exact .inl ⟨t', child', rfl, (hall.child hmem htr).here.running⟩
  | _ =>
    rw [htr] at hkind
    cases hkind

/-- A plan in which two halves of a work item come to one kitchen. -/
def canteen : Plan where
  id := "canteen"
  version := 1
  places := [{ id := "in", role := .start }, { id := "left" }, { id := "right" },
    { id := "counter" }, { id := "table" }, { id := "out", role := .terminal }]
  steps := [⟨"split", none, ["in"], ["left", "right"], .split⟩,
    ⟨"first", none, ["left"], ["counter"], .pass 0⟩,
    ⟨"second", none, ["right"], ["counter"], .pass 0⟩,
    ⟨"order", none, ["counter"], ["table"], .nested kitchen (.ofList [("dish", 0)])⟩,
    ⟨"eat", none, ["table"], ["out"], .task "eat"⟩]

/-- The half that waits while the kitchen cooks for the other goes in next. -/
theorem canteen_at_rest : ∃ (e : Engine) (first second : Run), build .standard canteen = .ok e ∧
    e.answer 40 serial (.start job) = some first ∧
    first.engine.answer 40 first.supply (.complete ["order", "cook"] ⟨3⟩ 0) = some second ∧
    (first.engine.holdings.map fun hold => hold.tokens.map (·.id)) =
      [[], [], [], [⟨2⟩], [], []] ∧
    (second.engine.holdings.map fun hold => hold.tokens.map (·.id)) = [[], [], [], [], [], []] ∧
    first.engine.status = .running ∧ second.engine.status = .running ∧
    first.engine.Throughout AtRest ∧ second.engine.Throughout AtRest := by
  have hfacts : ((build .standard canteen).toOption.bind fun e =>
      (e.answer 40 serial (.start job)).bind fun first =>
        (first.engine.answer 40 first.supply (.complete ["order", "cook"] ⟨3⟩ 0)).map fun second =>
          ((first.engine.holdings.map fun hold => hold.tokens.map (·.id)),
            (second.engine.holdings.map fun hold => hold.tokens.map (·.id)),
            first.engine.status, second.engine.status)) =
      some ([[], [], [], [⟨2⟩], [], []], [[], [], [], [], [], []], .running, .running) := by
    decide +kernel
  obtain ⟨e, hbuild⟩ : ∃ e, build .standard canteen = .ok e := ⟨_, rfl⟩
  rw [hbuild] at hfacts
  change (e.answer 40 serial (.start job)).bind _ = _ at hfacts
  obtain ⟨first, hfirst, hfacts⟩ := Option.bind_eq_some_iff.1 hfacts
  obtain ⟨second, hsecond, hfacts⟩ := Option.map_eq_some_iff.1 hfacts
  simp only [Prod.mk.injEq] at hfacts
  obtain ⟨hwaits, hnone, hrunning, hstill⟩ := hfacts
  have hreachable : Reachable World.careless .standard canteen first.engine :=
    .called (.built hbuild) (fun _ _ => trivial) hfirst trivial
  obtain ⟨hrest, hcalls⟩ := running_at_rest Fitter.standard_regular hreachable
  obtain ⟨hlater, -⟩ := hcalls 40 first.supply _ second hsecond hstill
  exact ⟨e, first, second, hbuild, hfirst, hsecond, hwaits, hnone, hrunning, hstill, hrest hrunning,
    hlater⟩

end RecipeNet.Engine
