import RecipeNet.Proofs.Net.Work

/-!
What becomes of a notice at a step without a nested plan. A pass, a split, a
task and a routed step take the token if it is still there; a join notes it, and
fires or keeps waiting. Only a join and a routing rule can refuse.
-/

namespace RecipeNet

namespace Station

variable {fitter : Fitter} {w : Station} {drive : Drive} {fuel k : Nat} {t : Token}
  {reacted : Reacted}

theorem silent (r : Reaction) : { r with events := r.events ++ [] } = r := by
  simp only [List.append_nil]

theorem Ready.suits (hf : fitter.Regular) (hw : w.Ready fitter) :
    w.slot.transition.Suits fitter w.slot.inputs.length w.slot.outputs.length :=
  (hw.apt hf).suits

theorem Ready.arrive_pass (hf : fitter.Regular) (hw : w.Ready fitter)
    (calm : w.scene.engine.Alert [] w.asleep w.owed (⟨w.i, k, t⟩ :: w.queue))
    (known : t ∈ w.scene.lore) {output : Nat} (htr : w.slot.transition = .pass output)
    (harrive : (Transition.pass output).arrive drive fuel (w.scene.engine.reaction w.slot) k t
      w.scene.supply = some reacted) : w.Fine reacted := by
  simp only [Transition.arrive] at harrive
  by_cases hheld : (w.scene.engine.reaction w.slot).holds k t = true
  · have hsuits := hw.suits hf
    rw [htr] at hsuits
    have hfires : w.slot.transition.Fires w.slot.step w.slot.outputs.length w.scene.supply
        ⟨[(k, t)], [(output, t)], [], .pass output, w.scene.supply, [], []⟩ := by
      rw [htr]
      exact .pass output k t
    obtain ⟨r', hfire, hfine⟩ := hw.fine_fired hf calm (by rw [htr]; rfl) hfires rfl known hheld
      (List.forall_mem_singleton.2 ⟨_, List.getElem?_eq_getElem hsuits.2⟩)
      nofun
    simp only [if_pos hheld, Reaction.forward, hfire, discard, Option.some.injEq] at harrive
    rw [silent] at hfine
    exact harrive ▸ hfine
  · rw [if_neg hheld] at harrive
    obtain rfl := Option.some.inj harrive
    rw [← htr]
    exact hw.fine_idle calm fun _ => by simpa using hheld

theorem Ready.arrive_split (hf : fitter.Regular) (hw : w.Ready fitter)
    (calm : w.scene.engine.Alert [] w.asleep w.owed (⟨w.i, k, t⟩ :: w.queue))
    (known : t ∈ w.scene.lore) (htr : w.slot.transition = .split)
    (harrive : Transition.split.arrive drive fuel (w.scene.engine.reaction w.slot) k t
      w.scene.supply = some reacted) : w.Fine reacted := by
  simp only [Transition.arrive] at harrive
  by_cases hheld : (w.scene.engine.reaction w.slot).holds k t = true
  · have hfires : w.slot.transition.Fires w.slot.step w.slot.outputs.length w.scene.supply
        ⟨[(k, t)], t.siblings (w.scene.supply.take w.slot.outputs.length).1, [], .split,
          (w.scene.supply.take w.slot.outputs.length).2,
          (t.siblings (w.scene.supply.take w.slot.outputs.length).1).map (·.2), []⟩ := by
      rw [htr]
      exact .split k t
    have htargets : ∀ e ∈ t.siblings (w.scene.supply.take w.slot.outputs.length).1,
        ∃ place, w.slot.outputs[e.1]? = some place := t.siblings_targets (by simp [Supply.take])
    obtain ⟨r', hfire, hfine⟩ := hw.fine_fired hf calm (by rw [htr]; rfl) hfires rfl known hheld
      htargets nofun
    simp only [Token.siblings] at hfire hfine
    simp only [if_pos hheld] at harrive
    simp only [Engine.reaction] at hfire harrive
    simp only [hfire, discard, Option.some.injEq] at harrive
    rw [silent] at hfine
    exact harrive ▸ hfine
  · rw [if_neg hheld] at harrive
    obtain rfl := Option.some.inj harrive
    rw [← htr]
    exact hw.fine_idle calm fun _ => by simpa using hheld

theorem Ready.arrive_task (hf : fitter.Regular) (hw : w.Ready fitter)
    (calm : w.scene.engine.Alert [] w.asleep w.owed (⟨w.i, k, t⟩ :: w.queue))
    (known : t ∈ w.scene.lore) {activity : String} {held : List Token}
    (htr : w.slot.transition = .task activity held)
    (harrive : (Transition.task activity held).arrive drive fuel
      (w.scene.engine.reaction w.slot) k t w.scene.supply = some reacted) : w.Fine reacted := by
  simp only [Transition.arrive] at harrive
  by_cases hheld : (w.scene.engine.reaction w.slot).holds k t = true
  · have hfires : w.slot.transition.Fires w.slot.step w.slot.outputs.length w.scene.supply
        ⟨[(k, t)], [], [.started (.ofStep w.slot.step) activity t],
          .task activity (held ++ [t]), w.scene.supply, [], []⟩ := by
      rw [htr]
      exact .begin activity held k t
    obtain ⟨r', hfire, hfine⟩ := hw.fine_fired hf calm (by rw [htr]; rfl) hfires rfl known hheld
      (List.forall_mem_nil _) nofun
    have hstep : r'.step = w.slot.step := (Reaction.fire_follows hfire).step
    simp only [if_pos hheld, hfire, announce, Reaction.raise, Option.some.injEq] at harrive
    rw [← hstep] at hfine
    exact harrive ▸ hfine
  · rw [if_neg hheld] at harrive
    obtain rfl := Option.some.inj harrive
    rw [← htr]
    exact hw.fine_idle calm fun _ => by simpa using hheld

/-- A rule that refuses a token halts the net. -/
theorem Ready.fine_balked (hw : w.Ready fitter)
    (calm : w.scene.engine.Alert [] w.asleep w.owed (⟨w.i, k, t⟩ :: w.queue))
    (known : t ∈ w.scene.lore) {rule : List Token → Token → Except String Nat}
    {seen : List Token} (htr : w.slot.transition = .routed rule seen) {reason : Failure}
    (refuses : (∃ text, rule seen t = .error text ∧ reason = .refused text) ∨
      ∃ output, rule seen t = .ok output ∧ w.slot.outputs.length ≤ output ∧
        reason = .routedOutside output w.slot.outputs.length) :
    w.Fine ⟨w.scene.engine.reaction w.slot, .routed rule (seen ++ [t]), w.scene.supply,
      .error (.transitionFailed w.slot.step reason)⟩ := by
  refine ⟨nofun, fun f hfault => ?_⟩
  obtain rfl := Except.error.inj hfault
  exact ⟨rfl, w.scene.lore,
    Course.of_act (.balked calm.brisk.running hw.stands htr known refuses)⟩

theorem Ready.arrive_routed (hf : fitter.Regular) (hw : w.Ready fitter)
    (calm : w.scene.engine.Alert [] w.asleep w.owed (⟨w.i, k, t⟩ :: w.queue))
    (known : t ∈ w.scene.lore) {rule : List Token → Token → Except String Nat}
    {seen : List Token} (htr : w.slot.transition = .routed rule seen)
    (harrive : (Transition.routed rule seen).arrive drive fuel
      (w.scene.engine.reaction w.slot) k t w.scene.supply = some reacted) : w.Fine reacted := by
  simp only [Transition.arrive] at harrive
  by_cases hheld : (w.scene.engine.reaction w.slot).holds k t = true
  · rw [if_pos hheld] at harrive
    cases hrule : rule seen t with
    | error text =>
      simp only [hrule, Option.some.injEq] at harrive
      exact harrive ▸ hw.fine_balked calm known htr (.inl ⟨text, hrule, rfl⟩)
    | ok output =>
      simp only [hrule] at harrive
      by_cases hin : output < (w.scene.engine.reaction w.slot).outputs.length
      · have hfires : w.slot.transition.Fires w.slot.step w.slot.outputs.length w.scene.supply
            ⟨[(k, t)], [(output, t)], [], .routed rule (seen ++ [t]), w.scene.supply, [], []⟩ := by
          rw [htr]
          exact .routed rule seen k output t hrule
        obtain ⟨r', hfire, hfine⟩ := hw.fine_fired hf calm (by rw [htr]; rfl) hfires rfl known
          hheld (List.forall_mem_singleton.2 ⟨_, List.getElem?_eq_getElem hin⟩)
          nofun
        simp only [if_pos hin, Reaction.forward, hfire, discard, Option.some.injEq] at harrive
        rw [silent] at hfine
        exact harrive ▸ hfine
      · rw [if_neg hin] at harrive
        obtain rfl := Option.some.inj harrive
        exact hw.fine_balked calm known htr
          (.inr ⟨output, hrule, Nat.le_of_not_lt hin, rfl⟩)
  · rw [if_neg hheld] at harrive
    obtain rfl := Option.some.inj harrive
    rw [← htr]
    exact hw.fine_idle calm fun _ => by simpa using hheld

end Station
end RecipeNet
