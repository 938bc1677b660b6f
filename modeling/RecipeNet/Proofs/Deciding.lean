import RecipeNet.Proofs.Settling

/-!
What joins decide from. A join keeps seats beside the places that it reads; whether
what it does with them agrees with the places is a matter of who else reads these
places, and of whether a token can be in two of them.
-/

namespace RecipeNet

/-- A step could join: for each of its inputs another sibling of one original can be
chosen from the place behind the input. -/
def Slot.Enabled (hs : List Holding) (slot : Slot) : Prop :=
  ∃ original : TokenId, ∃ chosen : List Token, (chosen.map (·.id)).Nodup ∧
    List.Forall₂ (fun p t => (∃ hold, hs[p]? = some hold ∧ t ∈ hold.tokens) ∧
      ∃ parent, t.parent = some parent ∧ parent.id = original) slot.inputs chosen

def Engine.Enabled (e : Engine) : Prop :=
  ∃ slot ∈ e.slots, (∃ inputs pending, slot.transition = .join inputs pending) ∧
    slot.Enabled e.holdings

namespace Engine

variable {fitter : Fitter} {plan : Plan} {e : Engine} {events : List Event} {slot : Slot}

/-- A sibling behind an input of a join in which everyone sits who is there sits in a
generation of its original. -/
theorem sits_of_heeds (coherent : e.lore.Coherent) (orderly : e.Orderly Siblings)
    (hs : slot ∈ e.slots) {inputs : Nat} {pending : List Generation}
    (htr : slot.transition = .join inputs pending) (heeds : slot.Heeds e.holdings fun _ _ => 0)
    {k p : Nat} (hp : slot.inputs[k]? = some p) {hold : Holding} (hat : e.holdings[p]? = some hold)
    {t parent : Token} (ht : t ∈ hold.tokens) (hparent : t.parent = some parent) :
    ∃ g ∈ pending, g.parent.id = parent.id ∧ t ∈ g.slots.filterMap id := by
  have hthere : (p, t.id) ∈ stock e.holdings := mem_stock.2 ⟨hold, hat, t, ht, rfl⟩
  have hbound : (stock e.holdings).count (p, t.id) ≤ 0 + slot.sitters.count (p, t.id) :=
    (heeds inputs pending htr).2 k p hp t.id
  have hone := Multiset.one_le_count_iff_mem.2 hthere
  have hmem : (p, t.id) ∈ slot.sitters := Multiset.one_le_count_iff_mem.1 (by omega)
  rw [Slot.sitters_join htr] at hmem
  obtain ⟨g, hg, hin⟩ := Join.mem_sitters.1 hmem
  obtain ⟨k', u, hu, -, hid⟩ := Generation.mem_sitters.1 hin
  have hfill : u ∈ g.slots.filterMap id :=
    List.mem_filterMap.2 ⟨some u, List.mem_of_getElem? (Generation.mem_siblings.1 hu), rfl⟩
  -- Seats and places are compared by identity; one identity is one token.
  have hknown : e.MentionsAt [] u := by
    refine .step hs ?_
    rw [htr]
    exact List.mem_flatMap.2 ⟨g, hg, List.mem_cons_of_mem _ hfill⟩
  obtain rfl := coherent [] u hknown t (.place (List.mem_of_getElem? hat) ht) hid
  obtain ⟨parent', hparent', hkin⟩ := (orderly slot hs _ _ htr g hg).2 u hfill
  obtain rfl := Option.some.inj (hparent'.symm.trans hparent)
  exact ⟨g, hg, hkin.symm, hfill⟩

/-- A join whose generations are all open, and in which everyone sits who is behind its
inputs, could not join. -/
theorem not_enabled_of_heeds (hf : fitter.Regular) (fits : e.Fits fitter)
    (coherent : e.lore.Coherent) (orderly : e.Orderly Siblings) (kempt : e.Kempt)
    (hs : slot ∈ e.slots) {inputs : Nat} {pending : List Generation}
    (htr : slot.transition = .join inputs pending) (heeds : slot.Heeds e.holdings fun _ _ => 0) :
    ¬ slot.Enabled e.holdings := by
  rintro ⟨original, chosen, hdistinct, hchosen⟩
  have hopen := (heeds inputs pending htr).1
  have hsuits := (fits.slot hf hs).suits
  rw [htr] at hsuits
  obtain ⟨hwidth, hsome, -⟩ := hsuits
  -- Each of them sits in a generation of the original.
  have hsits : ∀ t ∈ chosen, ∃ g ∈ pending, g.parent.id = original ∧
      t ∈ g.slots.filterMap id := by
    intro t ht
    obtain ⟨k, hk⟩ := List.mem_iff_getElem?.1 ht
    obtain ⟨p, hp, ⟨hold, hat, htok⟩, parent, hparent, horiginal⟩ := forall₂_left_at hchosen hk
    obtain ⟨g, hg, hkin, hin⟩ := sits_of_heeds coherent orderly hs htr heeds hp hat htok hparent
    exact ⟨g, hg, hkin.trans horiginal, hin⟩
  -- It is the same generation for all of them, and has no seat left.
  cases hcases : chosen with
  | nil =>
    rw [hcases, List.forall₂_nil_right_iff] at hchosen
    rw [hchosen] at hsome
    exact lt_irrefl 0 hsome
  | cons first rest =>
    obtain ⟨g, hg, hfirst, -⟩ := hsits first (hcases ▸ List.mem_cons_self)
    have hcomplete : g.isComplete = true := by
      apply Generation.complete_of_ids hdistinct
      · rw [List.length_map, ← hchosen.length_eq, ← hwidth]
        exact (orderly slot hs _ _ htr g hg).1.1.symm
      · intro i hi
        obtain ⟨t, ht, rfl⟩ := List.mem_map.1 hi
        obtain ⟨g', hg', horiginal, hin⟩ := hsits t ht
        obtain rfl : g' = g :=
          (kempt.parted slot hs _ _ htr).unique hg' hg (horiginal.trans hfirst.symm)
        exact ⟨t, hin, rfl⟩
    rw [hopen g hg] at hcomplete
    cases hcomplete

/-- A net at rest has no join that could join, if no other step reads the places of
joins and its plan gathers. -/
theorem Raised.not_enabled (hf : fitter.Regular) (h : Raised fitter plan events e)
    (running : e.status = .running) :
    e.Throughout fun e => e.plan.Reserved → e.plan.Gathers → ¬ e.Enabled := by
  have hfits := (h.reachable.steady hf).fits
  have hcoherent := throughout_coherent hfits (h.reachable.straight hf).coherent
  have hall := ((hfits.and hcoherent).and ((h.orderly hf).and (h.kempt hf))).and
    (h.settled hf (.inl running))
  apply hall.imp
  rintro e ⟨⟨⟨fits, coherent⟩, orderly, kempt⟩, settled⟩ hplan hgathers
    ⟨slot, hs, ⟨inputs, pending, htr⟩, henabled⟩
  exact not_enabled_of_heeds hf fits coherent orderly kempt hs htr (settled hplan hgathers slot hs)
    henabled

/-- Joins decide from what the places behind their inputs hold, if no other step reads
these places: a sibling because of which a join refuses another is there, and if the
plan gathers, no join is left in a net at rest that could join. -/
theorem joins_decide_from_places (h : Raised .standard plan events e) :
    (∀ {fuel : Nat} {s : Supply} {call : Call} {run : Run}, (∀ t, call = .start t → t.Proper) →
      e.answer fuel s call = some run → Supply.Fresh (e.opened call).Mentions s run.supply →
      ∀ {step input id held parent},
        run.result = .error (.unexpectedToken step id (.taken input held parent)) →
          run.engine.Somewhere (Taken step input held parent)) ∧
    (e.status = .running →
      e.Throughout fun e => e.plan.Reserved → e.plan.Gathers → ¬ e.Enabled) := by
  have hf := Fitter.standard_regular
  constructor
  · intro fuel s call run starts answers fresh step input id held parent refused
    exact h.seat_taken hf starts answers fresh refused
  · exact h.not_enabled hf

/-- A plan that brings both halves of its work item to the same input of a join. -/
def crowd : Plan where
  id := "crowd"
  version := 1
  places := [{ id := "in", role := .start }, { id := "left" }, { id := "right" }, { id := "back" },
    { id := "aside" }, { id := "out", role := .terminal }]
  steps := [⟨"split", none, ["in"], ["left", "right"], .split⟩,
    ⟨"join", none, ["left", "back"], ["out"], .join⟩,
    ⟨"fetch", none, ["right"], ["left"], .task "fetch"⟩]

/-- The same plan with another step that reads the place that is crowded. -/
def diversion : Plan :=
  { crowd with
    id := "diversion"
    steps := crowd.steps ++ [⟨"move", none, ["left"], ["aside"], .pass 0⟩] }

/-- The second half is refused because of the first one, in a net of either plan. -/
theorem crowd_refuses (plan : Plan) (held : List (List TokenId))
    (hfacts : ((build .standard plan).toOption.bind fun e =>
      (e.answer 40 counting (.start whole)).bind fun first =>
        (first.engine.answer 40 first.supply (.complete ["fetch"] ⟨2⟩ 0)).map fun second =>
          decide ((first.supply.used = 2 ∧ second.supply.used = 2) ∧
            first.engine.status = .running ∧
            second.result = .error (.unexpectedToken "join" ⟨2⟩ (.taken 0 ⟨1⟩ ⟨0⟩)) ∧
            second.engine.holdings.map (fun hold => hold.tokens.map (·.id)) = held)) = some true) :
    ∃ (events : List Event) (first second : Run), Raised .standard plan events first.engine ∧
      first.engine.status = .running ∧
      first.engine.answer 40 first.supply (.complete ["fetch"] ⟨2⟩ 0) = some second ∧
      Supply.Fresh first.engine.Mentions first.supply second.supply ∧
      second.result = .error (.unexpectedToken "join" ⟨2⟩ (.taken 0 ⟨1⟩ ⟨0⟩)) ∧
      second.engine.holdings.map (fun hold => hold.tokens.map (·.id)) = held := by
  obtain ⟨e, hbuild, hfacts⟩ := Option.bind_eq_some_iff.1 hfacts
  obtain ⟨first, hfirst, hfacts⟩ := Option.bind_eq_some_iff.1 hfacts
  obtain ⟨second, hsecond, hfacts⟩ := Option.map_eq_some_iff.1 hfacts
  obtain ⟨⟨hused₁, hused₂⟩, hrunning, hrefused, hheld⟩ := of_decide_eq_true hfacts
  have hok : build .standard plan = .ok e := by
    cases hresult : build .standard plan with
    | error f => simp [hresult, Except.toOption] at hbuild
    | ok e' =>
      rw [hresult] at hbuild
      exact congrArg _ (Option.some.inj hbuild)
  obtain ⟨hraised, hfresh⟩ := (Raised.built hok).further Fitter.standard_regular
    (fun t ht => by cases ht; exact whole_proper) hfirst
    (counting_fresh hok 2 (by decide)) hused₁.le
  refine ⟨_, first, second, hraised, hrunning, hsecond, ?_, hrefused, hheld⟩
  intro i hi hlast
  rw [hused₁] at hi
  rw [hused₂] at hlast
  exact absurd hlast (not_lt.2 hi)

/-- The half because of which the other one is refused is where it sits. -/
theorem crowd_decides : ∃ (events : List Event) (first second : Run),
    Raised .standard crowd events first.engine ∧ first.engine.status = .running ∧
    ¬ first.engine.Enabled ∧
    first.engine.answer 40 first.supply (.complete ["fetch"] ⟨2⟩ 0) = some second ∧
    second.result = .error (.unexpectedToken "join" ⟨2⟩ (.taken 0 ⟨1⟩ ⟨0⟩)) ∧
    second.engine.Somewhere (Taken "join" 0 ⟨1⟩ ⟨0⟩) ∧
    second.engine.holdings.map (fun hold => hold.tokens.map (·.id)) =
      [[], [⟨1⟩, ⟨2⟩], [], [], [], []] := by
  obtain ⟨events, first, second, hraised, hrunning, hsecond, hfresh, hrefused, hheld⟩ :=
    crowd_refuses crowd [[], [⟨1⟩, ⟨2⟩], [], [], [], []] (by decide +kernel)
  obtain ⟨htaken, hidle⟩ := joins_decide_from_places hraised
  have hplan := (hraised.reachable.steady Fitter.standard_regular).runs
  have hnone : ¬ first.engine.Enabled := by
    apply (hidle hrunning).here <;> rw [hplan]
    · show crowd.Reserved
      decide +kernel
    · show crowd.Gathers
      decide +kernel
  exact ⟨events, first, second, hraised, hrunning, hnone, hsecond, hrefused,
    htaken (fun t ht => by cases ht) hsecond hfresh hrefused, hheld⟩

/-- A half is refused because of one that is no longer in the place. -/
theorem diversion_refuses : ∃ (events : List Event) (first second : Run),
    Raised .standard diversion events first.engine ∧
    first.engine.answer 40 first.supply (.complete ["fetch"] ⟨2⟩ 0) = some second ∧
    second.result = .error (.unexpectedToken "join" ⟨2⟩ (.taken 0 ⟨1⟩ ⟨0⟩)) ∧
    second.engine.holdings.map (fun hold => hold.tokens.map (·.id)) =
      [[], [⟨2⟩], [], [], [⟨1⟩], []] := by
  obtain ⟨events, first, second, hraised, -, hsecond, -, hrefused, hheld⟩ :=
    crowd_refuses diversion [[], [⟨2⟩], [], [], [⟨1⟩], []] (by decide +kernel)
  exact ⟨events, first, second, hraised, hsecond, hrefused, hheld⟩

end Engine
end RecipeNet
