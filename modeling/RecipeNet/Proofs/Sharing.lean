import RecipeNet.Proofs.History

/-!
What becomes of a token that is split. A join may make it whole while other parts
of it are still on their way, and it may be split anew while they are; then it is
held twice, or a join takes parts of two splits together. Neither happens in a net
whose joins take as many siblings as any of its splits makes.
-/

namespace RecipeNet

/-- No split of a plan makes more siblings than any of its joins takes. -/
def Plan.Gathers (plan : Plan) : Prop :=
  ∀ s ∈ plan.steps, s.kind = .split → ∀ j ∈ plan.steps, j.kind = .join →
    s.outputs.length ≤ j.inputs.length

instance (plan : Plan) : Decidable plan.Gathers :=
  inferInstanceAs (Decidable (∀ s ∈ plan.steps, s.kind = .split → ∀ j ∈ plan.steps,
    j.kind = .join → s.outputs.length ≤ j.inputs.length))

namespace Engine

variable {fitter : Fitter} {plan : Plan} {e : Engine} {events : List Event}

instance (e : Engine) : Decidable e.Exclusive :=
  inferInstanceAs (Decidable (Multiset.Nodup _))

/-- A step of a net is made of the step of its plan at the same position. -/
theorem Fits.origin (hf : fitter.Regular) (h : e.Fits fitter) {i : Nat} {slot : Slot}
    (hi : e.outline.slots[i]? = some slot) : ∃ step, e.plan.steps[i]? = some step ∧
      placeIndices e.outline.holdings step.inputs = .ok slot.inputs ∧
      placeIndices e.outline.holdings step.outputs = .ok slot.outputs ∧
      (slot.transition.outline = .split → step.kind = .split) ∧
      ∀ n, slot.transition.outline = .join n [] → step.kind = .join := by
  obtain ⟨step, hstep, hfit⟩ := forall₂_left_at (built_of_build h.1).slots hi
  obtain ⟨inputs, outputs, fitting, hin, hout, hfitting, rfl⟩ := fitSlot_ok.1 hfit
  refine ⟨step, hstep, hin, hout, ?_⟩
  dsimp only
  rw [Transition.outline_ofFitting]
  rcases hf step with hstandard | ⟨rule, hrule⟩
  · obtain rfl := Except.ok.inj (hstandard.symm.trans hfitting)
    cases hkind : step.kind <;> simp [Fitting.standard, hkind, Transition.ofFitting]
  · obtain rfl := Except.ok.inj (hrule.symm.trans hfitting)
    exact ⟨fun hsplit => (by cases hsplit), fun _ hjoin => (by cases hjoin)⟩

theorem Fits.gathers (hf : fitter.Regular) (h : e.Fits fitter) (hplan : e.plan.Gathers) :
    RecipeNet.Gathers e.outline.slots := by
  intro s hs hsplit j hj n hjoin
  obtain ⟨_, hs⟩ := List.mem_iff_getElem?.1 hs
  obtain ⟨_, hj⟩ := List.mem_iff_getElem?.1 hj
  obtain ⟨maker, hmaker, -, houts, hkind, -⟩ := h.origin hf hs
  obtain ⟨taker, htaker, hins, -, -, hkind'⟩ := h.origin hf hj
  rw [← (placeIndices_ok houts).length_eq, ← (placeIndices_ok hins).length_eq]
  exact hplan maker (List.mem_of_getElem? hmaker) (hkind hsplit) taker (List.mem_of_getElem? htaker)
    (hkind' n hjoin)

/-- Nets within a coherent net are coherent. -/
theorem throughout_coherent {P : Engine → Prop} (h : e.Throughout P) (hcoherent : e.lore.Coherent) :
    e.Throughout fun e => e.lore.Coherent := by
  induction h with
  | @intro e here inside ih =>
    refine .intro hcoherent fun slot hs nest t child ht => ih slot hs nest t child ht ?_
    exact Lore.Coherent.anti (fun path => hcoherent (slot.step :: path)) (below_lore hs ht)

/-- What a net holds it mentions. -/
theorem mentions_work {t : Token} (ht : t ∈ e.work) : e.MentionsAt [] t := by
  rw [work_eq] at ht
  rcases List.mem_append.1 ht with hplace | hstep
  · obtain ⟨hold, hmem, htok⟩ := List.mem_flatMap.1 hplace
    exact .place hmem htok
  · obtain ⟨slot, hs, htok⟩ := List.mem_flatMap.1 hstep
    exact .step hs (slot.transition.taken_subset htok)

/-- Tokens that are told apart are held once each if there is none twice among them. -/
theorem exclusive_of_nodup (hcoherent : e.lore.Coherent) (hnodup : e.work.Nodup) : e.Exclusive :=
  Multiset.Nodup.map_on (fun t ht u hu hid =>
    hcoherent [] t (mentions_work ht) u (mentions_work hu) hid) hnodup

/-- A net whose plan gathers holds no token twice. -/
theorem Raised.exclusive (hf : fitter.Regular) (h : Raised fitter plan events e) :
    e.Throughout fun e => e.plan.Gathers → e.Exclusive := by
  have hfits := (h.reachable.steady hf).fits
  have hcoherent := throughout_coherent hfits (h.reachable.straight hf).coherent
  refine (((h.chronicled hf).2.and hfits).and hcoherent).imp ?_
  rintro e ⟨⟨⟨past, hpast⟩, hfits⟩, hcoherent⟩ hplan
  exact exclusive_of_nodup hcoherent ((hfits.gathers hf hplan).nodup hpast)

/-- A net comes to hold a token twice when one of its joins makes a token whole that
is still held, and in no other way. If its plan gathers, it never does. -/
theorem held_twice_iff_joined_early (h : Raised .standard plan events e) :
    (∃ past, e.Chronicled past ∧
      past.reverse.filterMap Deed.step? = events.filterMap Event.own?) ∧
    e.Throughout fun e => (∃ past, e.Chronicled past) ∧
      (∀ past, e.Chronicled past →
        ((∀ deed ∈ past, (deed.after.map (·.id)).Nodup) ↔ ∀ deed ∈ past, ¬ deed.Early)) ∧
      (e.plan.Gathers → e.Exclusive) := by
  have hf := Fitter.standard_regular
  obtain ⟨hlisted, hall⟩ := h.chronicled hf
  exact ⟨hlisted, (hall.and (h.exclusive hf)).imp fun e ⟨hsome, hexclusive⟩ =>
    ⟨hsome, fun past hpast => hpast.exclusive_iff, hexclusive⟩⟩

/-- What a call leaves can be gone on with, if what is drawn then is new as well. -/
theorem Raised.further (hf : fitter.Regular) (h : Raised fitter plan events e) {fuel : Nat} {s : Supply}
    {call : Call} {run : Run} (starts : ∀ t, call = .start t → t.Proper)
    (answers : e.answer fuel s call = some run) {last : Supply}
    (fresh : Supply.Fresh (e.opened call).Mentions s last) (hle : run.supply.used ≤ last.used) :
    Raised fitter plan (events ++ run.events) run.engine ∧
      Supply.Fresh run.engine.Mentions run.supply last := by
  refine ⟨.called h starts answers (fresh.anti hle), ?_⟩
  have hsteady := h.reachable.steady hf
  rcases hsteady.answer hf answers with ⟨f, hrefusal, rfl⟩ | ⟨hopens, hproper⟩
  · rw [hrefusal.offers.1] at fresh
    exact fresh
  · obtain ⟨lore, hcourse⟩ := hproper.course
    have hcoherent := ((h.reachable.straight hf).opened hsteady starts).coherent
    have hclear := hcourse.clear hle ⟨hcoherent, fresh⟩
    have hknown := lore_le (hcourse.sound hf (sound_lore hopens.fits s))
    intro i hi hlast
    obtain ⟨hnew, hother⟩ := hclear.fresh i hi hlast
    exact ⟨fun t ⟨path, ht⟩ => hnew t ⟨path, hknown path ht⟩, hother⟩

/-- The numbers that are counted are new to a net that is started with a token of the
number zero. -/
theorem counting_apart (hbuild : build fitter plan = .ok e) {t : Token} (alone : t.ancestry = [])
    (zero : t.id = ⟨0⟩) (count : Nat) (few : count < 2 ^ 128 - 1) :
    Supply.Fresh (e.opened (.start t)).Mentions counting ⟨counting.draw, count⟩ := by
  have hb := built_of_build hbuild
  have hopened := opened_start hb.status t
  have hnumber : ∀ i < count, (counting.draw i).bits.toNat = i + 1 := by
    intro i hi
    have hlt : i + 1 < 2 ^ 128 := by omega
    exact (BitVec.toNat_ofNat _ _).trans (Nat.mod_eq_of_lt hlt)
  rw [hopened]
  intro i _ hi
  change i < count at hi
  refine ⟨fun u ⟨path, hu⟩ heq => ?_, fun j _ hj heq => ?_⟩
  · have hmem := (entered_mentions hb hu).2
    rw [alone] at hmem
    obtain rfl := List.mem_singleton.1 hmem
    have hvalue := hnumber i hi
    rw [← heq, zero] at hvalue
    cases hvalue
  · have hvalue := hnumber j (hj.trans hi)
    rw [heq, hnumber i hi] at hvalue
    omega

theorem counting_fresh (hbuild : build fitter plan = .ok e) (count : Nat) (few : count < 2 ^ 128 - 1) :
    Supply.Fresh (e.opened (.start whole)).Mentions counting ⟨counting.draw, count⟩ :=
  counting_apart hbuild rfl rfl count few

/-- A fork that has run. -/
theorem fork_raised : ∃ events e, Raised .standard fork events e ∧
    events.filterMap Event.own? = ["split", "join"] ∧
    e.outline.slots = [⟨"split", [0], [1, 2], .initialized, .split⟩,
      ⟨"join", [1, 2], [3], .initialized, .join 2 []⟩] := by
  obtain ⟨e, hbuild⟩ : ∃ e, build .standard fork = .ok e := ⟨_, rfl⟩
  obtain ⟨run, hanswer, hused, hevents, hslots⟩ : ∃ run,
      e.answer 10 counting (.start whole) = some run ∧ run.supply.used = 2 ∧
      run.events.filterMap Event.own? = ["split", "join"] ∧
      run.engine.outline.slots = [⟨"split", [0], [1, 2], .initialized, .split⟩,
        ⟨"join", [1, 2], [3], .initialized, .join 2 []⟩] := by
    cases hbuild
    exact ⟨_, rfl, rfl, rfl, rfl⟩
  exact ⟨_, _, ((Raised.built hbuild).further Fitter.standard_regular
    (fun t ht => by cases ht; exact whole_proper) hanswer
    (counting_fresh hbuild 2 (by decide)) hused.le).1, hevents, hslots⟩

theorem fork_held_once : ∃ events e, Raised .standard fork events e ∧
    events.filterMap Event.own? = ["split", "join"] ∧ e.Exclusive := by
  obtain ⟨events, e, hraised, hevents, -⟩ := fork_raised
  obtain ⟨-, hall⟩ := held_twice_iff_joined_early hraised
  have hplan := (hraised.reachable.steady Fitter.standard_regular).runs
  refine ⟨events, e, hraised, hevents, hall.here.2.2 ?_⟩
  rw [hplan]
  decide +kernel

/-- A plan that makes its work item whole twice, from two parts of four each time. -/
def halves : Plan where
  id := "halves"
  version := 1
  places := [{ id := "in", role := .start }, { id := "a" }, { id := "b" }, { id := "c" }, { id := "d" },
    { id := "desk" }, { id := "out", role := .terminal }]
  steps := [⟨"split", none, ["in"], ["a", "b", "c", "d"], .split⟩,
    ⟨"left", none, ["a", "b"], ["desk"], .join⟩, ⟨"right", none, ["c", "d"], ["desk"], .join⟩,
    ⟨"work", none, ["desk"], ["out"], .task "work"⟩]

theorem halves_raised : ∃ events e, Raised .standard halves events e ∧ e.status = .running ∧
    e.work.map (·.id) = {whole.id, whole.id} := by
  have hfacts : ((build .standard halves).toOption.bind fun e =>
      (e.answer 40 counting (.start whole)).map fun run => (run.supply.used, run.engine.status,
        decide (run.engine.work.map (·.id) = {whole.id, whole.id}))) = some (4, .running, true) := by
    decide +kernel
  obtain ⟨e, hbuild⟩ : ∃ e, build .standard halves = .ok e := ⟨_, rfl⟩
  rw [hbuild] at hfacts
  obtain ⟨run, hanswer, hfacts⟩ := Option.map_eq_some_iff.1 hfacts
  obtain ⟨hused, hfacts⟩ := Prod.mk.inj hfacts
  obtain ⟨hrunning, hwork⟩ := Prod.mk.inj hfacts
  exact ⟨_, _, ((Raised.built hbuild).further Fitter.standard_regular
    (fun t ht => by cases ht; exact whole_proper) hanswer
    (counting_fresh hbuild 4 (by decide)) hused.le).1, hrunning, of_decide_eq_true hwork⟩

/-- The work item is then held twice. -/
theorem halves_held_twice : ∃ events e, Raised .standard halves events e ∧ e.status = .running ∧
    ¬ e.Exclusive := by
  obtain ⟨events, e, hraised, hrunning, hwork⟩ := halves_raised
  refine ⟨events, e, hraised, hrunning, ?_⟩
  unfold Exclusive
  rw [hwork]
  decide

/-- What a join takes is of one batch, unless the token that it makes whole was split
while something that comes from it was still held. If the plan of the net gathers,
it always is. -/
theorem joined_from_one_batch (h : Raised .standard plan events e) :
    (∃ past, e.Chronicled past ∧
      past.reverse.filterMap Deed.step? = events.filterMap Event.own?) ∧
    e.Throughout fun e => (∃ past, e.Chronicled past) ∧
      ∀ later earlier step t taken rest, e.Chronicled (later ++ .join step t taken rest :: earlier) →
        (e.plan.Gathers ∨ ∀ deed ∈ earlier, ¬ deed.Hasty t) →
          ∃ batch, Chronicle.Batch earlier batch ∧ taken ⊆ batch := by
  have hf := Fitter.standard_regular
  obtain ⟨hlisted, hall⟩ := h.chronicled hf
  refine ⟨hlisted, (hall.and (h.reachable.steady hf).fits).imp fun e ⟨hsome, hfits⟩ => ⟨hsome, ?_⟩⟩
  intro later earlier step t taken rest hpast hcase
  refine Chronicle.unmixed hpast rfl ?_
  rcases hcase with hplan | hclean
  · exact (hfits.gathers hf hplan).clean (hpast.split_at rfl).1 t
  · exact hclean

/-- The parts that the join of a fork takes are of one batch. -/
theorem fork_joined_from_one_batch : ∃ events e later earlier t taken rest batch,
    Raised .standard fork events e ∧
    e.Chronicled (later ++ .join "join" t taken rest :: earlier) ∧
    Chronicle.Batch earlier batch ∧ taken ⊆ batch := by
  obtain ⟨events, e, hraised, hevents, hslots⟩ := fork_raised
  obtain ⟨⟨past, hpast, hsteps⟩, hall⟩ := joined_from_one_batch hraised
  have hjoined : "join" ∈ past.reverse.filterMap Deed.step? := by
    rw [hsteps, hevents]
    decide
  obtain ⟨deed, hdeed, hstep⟩ := List.mem_filterMap.1 hjoined
  obtain ⟨later, earlier, rfl⟩ := List.append_of_mem (List.mem_reverse.1 hdeed)
  have hkind : ∀ slot ∈ e.outline.slots, slot.step = "join" →
      slot.transition.outline = .join 2 [] := by
    rw [hslots]
    intro slot hs hname
    rcases List.mem_cons.1 hs with rfl | hs
    · exact absurd hname (by decide)
    · rw [List.mem_singleton.1 hs]
      rfl
  have hplan : e.plan.Gathers := by
    rw [(hraised.reachable.steady Fitter.standard_regular).runs]
    decide +kernel
  cases (hpast.split_at rfl).2 with
  | enter => cases hstep
  | carry stands plain => exact absurd (hkind _ stands (Option.some.inj hstep)) (plain.2 2)
  | split stands kind => cases kind.symm.trans (hkind _ stands (Option.some.inj hstep))
  | @join slot t taken rest =>
    obtain ⟨batch, hbatch, hsub⟩ := hall.here.2 later earlier slot.step t taken rest hpast (.inl hplan)
    have hname : slot.step = "join" := Option.some.inj hstep
    rw [hname] at hpast
    exact ⟨events, e, later, earlier, t, taken, rest, batch, hraised, hpast, hbatch, hsub⟩

/-- A plan that splits its work item once more while a part of it waits. -/
def rework : Plan where
  id := "rework"
  version := 1
  places := [{ id := "in", role := .start }, { id := "a" }, { id := "b" }, { id := "c" },
    { id := "desk" }, { id := "back" }, { id := "d" }, { id := "e" }, { id := "out", role := .terminal }]
  steps := [⟨"split", none, ["in"], ["a", "b", "c"], .split⟩,
    ⟨"first", none, ["a", "b"], ["desk"], .join⟩, ⟨"hold", none, ["desk"], ["back"], .task "hold"⟩,
    ⟨"again", none, ["back"], ["d"], .split⟩, ⟨"wait", none, ["d"], ["e"], .task "wait"⟩,
    ⟨"last", none, ["c", "e"], ["out"], .join⟩]

/-- A part of the first split waits, then the second split makes another one, and
then the join takes both at once. -/
theorem rework_mixes : ∃ e first second third, build .standard rework = .ok e ∧
    e.answer 40 counting (.start whole) = some first ∧
    first.engine.answer 40 first.supply (.complete ["hold"] whole.id 0) = some second ∧
    second.engine.answer 40 second.supply (.complete ["wait"] ⟨4⟩ 0) = some third ∧
    Raised .standard rework (first.events ++ second.events ++ third.events) third.engine ∧
    first.engine.work.map (·.id) = {⟨3⟩, whole.id} ∧ (∀ t, first.engine.Mentions t → t.id ≠ ⟨4⟩) ∧
    second.engine.work.map (·.id) = {⟨3⟩, ⟨4⟩} ∧
    third.events.filterMap Event.own? = ["last"] ∧ third.engine.work.map (·.id) = {whole.id} := by
  have hfacts : ((build .standard rework).toOption.bind fun e =>
      (e.answer 40 counting (.start whole)).bind fun first =>
        (first.engine.answer 40 first.supply (.complete ["hold"] whole.id 0)).bind fun second =>
          (second.engine.answer 40 second.supply (.complete ["wait"] ⟨4⟩ 0)).map fun third =>
            decide ((first.supply.used = 3 ∧ first.supply.draw 3 = ⟨4⟩ ∧
                second.supply.used = 4 ∧ third.supply.used = 4) ∧
              first.engine.work.map (·.id) = {⟨3⟩, whole.id} ∧
              second.engine.work.map (·.id) = {⟨3⟩, ⟨4⟩} ∧
              third.events.filterMap Event.own? = ["last"] ∧
              third.engine.work.map (·.id) = {whole.id})) = some true := by
    decide +kernel
  obtain ⟨e, hbuild⟩ : ∃ e, build .standard rework = .ok e := ⟨_, rfl⟩
  rw [hbuild] at hfacts
  change (e.answer 40 counting (.start whole)).bind _ = _ at hfacts
  obtain ⟨first, hfirst, hfacts⟩ := Option.bind_eq_some_iff.1 hfacts
  obtain ⟨second, hsecond, hfacts⟩ := Option.bind_eq_some_iff.1 hfacts
  obtain ⟨third, hthird, hfacts⟩ := Option.map_eq_some_iff.1 hfacts
  obtain ⟨⟨hused₁, hnext, hused₂, hused₃⟩, hwork₁, hwork₂, hlast, hwork₃⟩ := of_decide_eq_true hfacts
  have hf := Fitter.standard_regular
  obtain ⟨hraised₁, hfresh₁⟩ := (Raised.built hbuild).further hf
    (fun t ht => by cases ht; exact whole_proper) hfirst
    (counting_fresh hbuild 4 (by decide)) (by rw [hused₁]; decide)
  obtain ⟨hraised₂, hfresh₂⟩ := hraised₁.further hf (fun t ht => by cases ht) hsecond hfresh₁ hused₂.le
  have hraised₃ := (hraised₂.further hf (fun t ht => by cases ht) hthird hfresh₂ hused₃.le).1
  refine ⟨e, first, second, third, hbuild, hfirst, hsecond, hthird, hraised₃, hwork₁, ?_, hwork₂, hlast,
    hwork₃⟩
  have hnew := (hfresh₁ 3 hused₁.le (by decide)).1
  rw [hnext] at hnew
  exact hnew

end Engine
end RecipeNet
