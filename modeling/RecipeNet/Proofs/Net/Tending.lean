import RecipeNet.Proofs.Net.Resume

/-!
Nets within nets, between requests. Whatever a cascade, a report or a resumption
does to a net, the nets that it leaves running within are at rest, paused or
halted; none of them is new, complete or disposed of.
-/

namespace RecipeNet

namespace Engine

/-- A net that can be left within another: at rest, paused, or halted with such
nets within. -/
inductive Alive : Engine → Prop
  | awake {e : Engine} (h : e.Awake) : Alive e
  | asleep {e : Engine} (h : e.Asleep) : Alive e
  | halted {e : Engine} (halted : e.status = .halted)
      (inside : ∀ slot ∈ e.slots, ∀ nest t child,
        slot.transition = .busy nest t child → Alive child) : Alive e

end Engine

def Transition.Tends (tr : Transition) : Prop :=
  ∀ nest t child, tr = .busy nest t child → child.Alive

namespace Engine

def Tended (e : Engine) : Prop := ∀ slot ∈ e.slots, slot.transition.Tends

variable {e : Engine}

theorem Awake.tended (h : e.Awake) : e.Tended :=
  fun _ hs _ _ _ ht => .awake (h.child hs ht)

theorem Asleep.tended (h : e.Asleep) : e.Tended :=
  fun _ hs _ _ _ ht => .asleep (h.child hs ht)

theorem Built.tended {fitter : Fitter} {plan : Plan} (h : e.Built fitter plan) : e.Tended :=
  fun _ hs nest t child ht => absurd ht (h.vacant hs nest t child)

theorem Built.tended_entered {fitter : Fitter} {plan : Plan} (h : e.Built fitter plan)
    (t : Token) : (e.entered t).Tended :=
  fun _ hs nest u child ht => absurd ht (entered_vacant h t hs nest u child)

theorem Tended.woken (h : e.Tended) : Tended { e.activate with status := .running } := by
  intro slot hs nest t child ht
  obtain ⟨old, hold, htr⟩ := mem_activate hs
  exact h old hold nest t child (htr ▸ ht)

theorem Tended.become (h : e.Tended) {tr : Transition} (tends : tr.Tends) (i : Nat)
    (hs : List Holding) : (e.become i hs tr).Tended := by
  intro slot hslot
  rcases mem_become hslot with hold | ⟨old, -, rfl⟩
  · exact h slot hold
  · exact tends

theorem Tended.acceptAll (h : e.Tended) (made : List (Nat × Token)) :
    (e.acceptAll made).1.Tended := by
  unfold Tended
  rw [slots_acceptAll]
  exact h

/-- A net is tended after the visit to a step that tends its own. -/
theorem Tended.visited (h : e.Tended) {i : Nat} {reacted : Reacted}
    (tends : reacted.transition.Tends) : (e.visited i reacted).engine.Tended := by
  have hnow : (e.withReacted i reacted).Tended := h.become tends i reacted.reaction.holdings
  obtain ⟨r, tr, s, result⟩ := reacted
  cases result with
  | error f =>
    intro slot hs
    change slot ∈ ((e.withReacted i ⟨r, tr, s, .error f⟩).halt f).slots at hs
    rw [slots_halt] at hs
    exact hnow slot hs
  | ok u => exact hnow.acceptAll r.produced

end Engine

/-- What has not completed is alive after an operation. -/
theorem Run.Proper.alive {sc : Scene} {run : Run} (h : run.Proper sc)
    (still : run.engine.status ≠ .completed) (tended : run.engine.Tended) : run.engine.Alive := by
  cases hresult : run.result with
  | ok u => exact .awake ((h.ok hresult).resolve_left still)
  | error f => exact .halted (h.error f hresult).2.1 tended

def Drive.Tending (fitter : Fitter) (drive : Drive) : Prop :=
  ∀ (sc : Scene) (queue : List Engine.Notice) (run : Run), sc.Sound fitter → sc.engine.Tended →
    sc.engine.status = .completed ∨ sc.engine.Alert [] [] [] queue →
    (∀ n ∈ queue, n.token ∈ sc.lore) → drive sc.engine queue sc.supply = some run →
    run.engine.Tended

namespace Station

variable {fitter : Fitter} {w : Station} {r : Reaction} {tr : Transition} {s : Supply}
  {lore : Lore} {nest : Nest} {t : Token} {child : Engine} {reacted : Reacted} {drive : Drive}

theorem Fine.outline_eq (hw : w.Ready fitter) (h : w.Fine reacted) :
    reacted.transition.outline = w.slot.transition.outline := by
  cases hresult : reacted.result with
  | ok u =>
    obtain ⟨lore, hunder, -⟩ := h.ok hresult
    exact hw.outline_eq hunder.course (hw.stands_now _ _)
  | error f =>
    obtain ⟨-, lore, hcourse⟩ := h.error f hresult
    refine hw.outline_eq hcourse ?_
    rw [Engine.slots_halt]
    exact hw.stands_now _ _

/-- A step that runs no nested plan never does. -/
theorem Fine.tends_plain (hw : w.Ready fitter) (h : w.Fine reacted)
    (plain : ∀ nest, w.slot.transition.outline ≠ .idle nest) : reacted.transition.Tends := by
  intro nest t child hbusy
  refine absurd ?_ (plain nest)
  rw [← h.outline_eq hw, hbusy]
  rfl

/-- What follows an operation on the nested net leaves a net that is alive, or none. -/
theorem Underway.tends_settle (hf : fitter.Regular) (hw : w.Ready fitter)
    (h : w.Underway r (.busy nest t child) s lore) (hopen : child.status ≠ .completed) {run : Run}
    (hrun : run.Proper ⟨child, s, lore.below w.slot.step⟩) (tended : run.engine.Tended)
    {next : Reaction → Token → Supply → Option Reacted}
    (hnext : ∀ r' waiting s' lore', w.Underway r' (.idle nest) s' lore' →
      r'.holds 0 waiting = true → waiting ∈ lore' → next r' waiting s' = some reacted →
      reacted.transition.Tends)
    (hsettle : nest.settle next t run r = some reacted) : reacted.transition.Tends := by
  rcases h.settles hf hw hopen hrun hsettle with
    ⟨r', s', lore', hidle, ⟨waiting, hheld, hlore, hagain⟩ | ⟨-, rfl⟩⟩ |
    ⟨r', lore', -, hstill, rfl⟩
  · exact hnext r' waiting s' lore' hidle hheld hlore hagain
  · exact fun _ _ _ hbusy => by cases hbusy
  · intro nest' t' child' hbusy
    cases hbusy
    exact hrun.alive hstill tended

/-- A net that is launched is alive as long as it lasts. -/
theorem Underway.tends_launch (hf : fitter.Regular) (hd : drive.Proper fitter)
    (ht : drive.Tending fitter) (hw : w.Ready fitter) (fuel : Nat)
    (h : w.Underway r (.idle nest) s lore) (held : r.holds 0 t = true) (known : t ∈ lore)
    (hlaunch : nest.launch drive fuel r t s = some reacted) : reacted.transition.Tends := by
  refine h.launch_induction hf hw ?_ fuel held known hlaunch
  intro fuel t child start r s lore run hlaunched hnext hsettle
  have htended := ht _ _ run (hlaunched.course.sound hf (hlaunched.sound hf hw))
    ((hlaunched.built.tended_entered start).acceptAll _) (hlaunched.built.ready_entered start)
    (Engine.notices_known hlaunched.made) hlaunched.drives
  exact hlaunched.underway.tends_settle hf hw (fun hcompleted => by cases hcompleted)
    (hlaunched.proper hf hd hw) htended hnext hsettle

/-- What becomes of a notice, whatever the step is. -/
theorem Ready.tends_arrive (hf : fitter.Regular) (hd : drive.Proper fitter)
    (ht : drive.Tending fitter) (hw : w.Ready fitter) (hawake : w.i ∉ w.asleep) {fuel k : Nat}
    (calm : w.scene.engine.Alert [] w.asleep w.owed (⟨w.i, k, t⟩ :: w.queue))
    (tended : w.scene.engine.Tended) (known : t ∈ w.scene.lore)
    (harrive : w.slot.transition.arrive drive fuel (w.scene.engine.reaction w.slot) k t
      w.scene.supply = some reacted) : reacted.transition.Tends := by
  have hfine := hw.arrive hf hd hawake calm known harrive
  cases htr : w.slot.transition with
  | pass | split | join | task | routed =>
    refine hfine.tends_plain hw fun nest hidle => ?_
    rw [htr] at hidle
    cases hidle
  | idle nest =>
    rw [htr] at harrive
    rcases hw.idle_cases hf calm htr harrive with ⟨-, rfl⟩ | ⟨hstart, hheld, hlaunch⟩
    · exact fun _ _ _ hbusy => by cases hbusy
    · exact hstart.tends_launch hf hd ht hw fuel hheld known hlaunch
  | busy nest u child =>
    simp only [htr, Transition.arrive, Option.some.injEq] at harrive
    subst harrive
    have hbusy := tended w.slot (List.mem_of_getElem? hw.stands)
    rw [htr] at hbusy
    exact hbusy

end Station

namespace Engine

variable {fitter : Fitter}

/-- A net is still tended when a visit has been followed up. -/
theorem Visit.Proper.tended_andThen {drive : Drive} (hf : fitter.Regular)
    (ht : drive.Tending fitter) {sc : Scene} (hsound : sc.Sound fitter) {queue : List Notice}
    {v : Visit} (hv : v.Proper sc [] [] queue) (tended : v.engine.Tended)
    (hqueue : ∀ n ∈ queue, n.token ∈ sc.lore) {run : Run}
    (hrun : v.andThen drive queue = some run) : run.engine.Tended := by
  obtain ⟨lore, hcourse, hnotices⟩ := hv.course
  unfold Visit.andThen at hrun
  cases hresult : v.result with
  | error f =>
    simp only [hresult, Option.some.injEq] at hrun
    exact hrun ▸ tended
  | ok u =>
    simp only [hresult] at hrun
    obtain ⟨rest, hrest, rfl⟩ := Option.map_eq_some_iff.1 hrun
    have hknown : ∀ n ∈ queue ++ v.notices, n.token ∈ lore := by
      intro n hn
      rcases List.mem_append.1 hn with hold | hnew
      · exact hcourse.lore_mono (hqueue n hold)
      · exact hnotices n hnew
    exact ht ⟨v.engine, v.supply, lore⟩ _ rest (hcourse.sound hf hsound) tended (hv.ok hresult)
      hknown hrest

/-- Working off notices leaves a net tended. -/
theorem drive_tending (hf : fitter.Regular) (fuel : Nat) : Drive.Tending fitter (drive fuel) := by
  induction fuel with
  | zero =>
    intro sc queue run _ _ _ _ hrun
    cases hrun
  | succ fuel ih =>
    intro sc queue run hsound htended hready hqueue hrun
    rcases drive_cases hready hrun with ⟨rfl, -⟩ |
      ⟨n, rest, rfl, hcalm, ⟨hnone, hlater⟩ | ⟨slot, reacted, hslot, harrive, hlater⟩⟩
    · exact htended
    · exact ih sc rest run hsound htended (.inr (hcalm.drop hnone))
        (fun m hm => hqueue m (List.mem_cons_of_mem _ hm)) hlater
    · have hw : Station.Ready fitter ⟨sc, n.slot, slot, [], [], rest⟩ := ⟨hsound, hslot⟩
      have hd := drive_proper hf fuel
      have hknown := hqueue n List.mem_cons_self
      have hfine := hw.arrive hf hd List.not_mem_nil hcalm hknown harrive
      have htends := hw.tends_arrive hf hd ih List.not_mem_nil hcalm htended hknown harrive
      exact (hfine.visited hcalm.brisk.running).tended_andThen hf ih hsound (htended.visited htends)
        (fun m hm => hqueue m (List.mem_cons_of_mem _ hm)) hlater

/-- The nets within a net that has been started are alive. -/
theorem startWith_tended (hf : fitter.Regular) {fuel : Nat} {e : Engine} {t : Token} {s : Supply}
    {lore : Lore} (hb : e.Built fitter e.plan)
    (hsound : Scene.Sound fitter ⟨e.entered t, s, lore⟩) (known : t ∈ lore)
    {run : Run} (hrun : startWith fuel e t s = some run) : run.engine.Tended := by
  have hmade : ∀ x ∈ [(e.startPlace, t)], x.2 ∈ lore := List.forall_mem_singleton.2 known
  have hcourse : Course ⟨e.entered t, s, lore⟩ _ _ := acceptAll_course hmade
  simp only [startWith, enter_created hb.status] at hrun
  obtain ⟨rest, hrest, rfl⟩ := Option.map_eq_some_iff.1 hrun
  exact drive_tending hf fuel _ _ rest (hcourse.sound hf hsound)
    ((hb.tended_entered t).acceptAll _) (hb.ready_entered t) (notices_known hmade) hrest

/-- The nets within a net that has been told of a finished activity are alive. -/
theorem complete_tended (hf : fitter.Regular) {fuel : Nat} {token : TokenId} {output : Nat}
    (path : List String) {sc : Scene} (hsound : sc.Sound fitter) (hawake : sc.engine.Awake)
    {run : Run} (hrun : complete fuel path sc.engine token output sc.supply = some run) :
    run.engine.Tended := by
  have hd := drive_proper hf fuel
  have ht := drive_tending hf fuel
  induction path generalizing sc run with
  | nil =>
    rw [complete_nil hawake.here.running hrun]
    exact hawake.tended
  | cons head rest ih =>
    have hrunning := hawake.here.running
    rcases complete_cases hrunning hrun with ⟨f, -, rfl⟩ |
      ⟨i, slot, activity, held, j, t, place, hslot, htr, hheld, hplace, hafter⟩ |
      ⟨i, slot, nest, t, child, inner, reacted, hslot, htr, hinner, hsettle, hafter⟩
    · exact hawake.tended
    · have hw : Station.Ready fitter ⟨sc, i, slot, [], [], []⟩ := ⟨hsound, hslot⟩
      have hfine := hw.fine_released hawake.alert htr hheld hplace
      exact (hfine.visited hrunning).tended_andThen hf ht hsound
        (hawake.tended.visited fun _ _ _ hbusy => by cases hbusy) (List.forall_mem_nil _) hafter
    · have hw : Station.Ready fitter ⟨sc, i, slot, [], [], []⟩ := ⟨hsound, hslot⟩
      have hmem := List.mem_of_getElem? hslot
      have hchild : child.Awake := hawake.child hmem htr
      have hinside : Scene.Sound fitter ⟨child, sc.supply, sc.lore.below slot.step⟩ :=
        hsound.child hmem htr
      rcases complete_proper hf rest hinside hchild hinner with hproper | ⟨f, hcaller, rfl⟩
      · have hstart := hw.start hawake.alert.setOut
        dsimp only at hstart
        rw [htr] at hstart
        have hfine := hstart.fine_settle hf hw List.not_mem_nil hchild.not_completed hproper
          (fun r' waiting s' lore' hidle hheld hlore hagain =>
            hidle.fine_launch hf hd hw List.not_mem_nil fuel hheld hlore hagain) hsettle
        have htends := hstart.tends_settle hf hw hchild.not_completed hproper
          (ih hinside hchild hinner)
          (fun r' waiting s' lore' hidle hheld hlore hagain =>
            hidle.tends_launch hf hd ht hw fuel hheld hlore hagain) hsettle
        exact (hfine.visited hrunning).tended_andThen hf ht hsound (hawake.tended.visited htends)
          (List.forall_mem_nil _) hafter
      · rw [within_refused hslot htr hcaller.spares hsettle hafter]
        exact hawake.tended

end Engine

def Again.Tending (fitter : Fitter) (again : Engine → Supply → Option Run) : Prop :=
  ∀ (sc : Scene) (run : Run), sc.Sound fitter → sc.engine.Asleep →
    again sc.engine sc.supply = some run → run.engine.Tended

namespace Station

variable {fitter : Fitter} {w : Station} {again : Engine → Supply → Option Run} {drive : Drive}
  {fuel : Nat} {reacted : Reacted}

/-- How a step goes on. -/
theorem Ready.tends_goOn (hf : fitter.Regular) (hd : drive.Proper fitter)
    (ht : drive.Tending fitter) (ha : Again.Proper fitter again) (hat : Again.Tending fitter again)
    (hw : w.Ready fitter) (calm : w.scene.engine.Alert [] (w.i :: w.asleep) w.owed w.queue)
    (tended : w.scene.engine.Tended)
    (hgo : Engine.goOn again drive fuel w.slot (w.scene.engine.reaction w.slot) w.scene.supply =
      some reacted) : reacted.transition.Tends := by
  have hmem := List.mem_of_getElem? hw.stands
  unfold Engine.goOn at hgo
  split at hgo
  · obtain rfl := Option.some.inj hgo
    exact tended w.slot hmem
  · rename_i nest t child htr
    split at hgo
    · cases hgo
    rename_i run hrun
    have hasleep := calm.nested w.i w.slot nest t child List.not_mem_nil hw.stands htr
    rw [if_pos List.mem_cons_self] at hasleep
    have hinside := hw.sound.child hmem htr
    have hproper := ha ⟨child, w.scene.supply, w.scene.lore.below w.slot.step⟩ run hinside hasleep
      hrun
    have htended := hat ⟨child, w.scene.supply, w.scene.lore.below w.slot.step⟩ run hinside hasleep
      hrun
    have hstart := hw.start calm.rouse
    rw [htr] at hstart
    exact hstart.tends_settle hf hw hasleep.not_completed hproper htended
      (fun r' waiting s' lore' hidle hheld hlore hagain =>
        hidle.tends_launch hf hd ht hw fuel hheld hlore hagain) hgo
  · obtain rfl := Option.some.inj hgo
    exact tended w.slot hmem

end Station

namespace Engine

variable {fitter : Fitter} {again : Engine → Supply → Option Run} {drive : Drive} {fuel : Nat}

/-- The steps go on in turn, and all nets within stay alive. -/
theorem resumeSlots_tended (hf : fitter.Regular) (hd : drive.Proper fitter)
    (ht : drive.Tending fitter) (ha : Again.Proper fitter again) (hat : Again.Tending fitter again)
    (rest : List Nat) (hnodup : rest.Nodup) {sc : Scene} (hsound : sc.Sound fitter)
    (htended : sc.engine.Tended) {owed : List (Nat × Token)} {queue : List Notice}
    (hready : sc.engine.status = .completed ∨ sc.engine.Alert [] rest owed queue) {v : Visit}
    (hrun : resumeSlots again drive fuel sc.engine sc.supply rest = some v) :
    v.engine.Tended := by
  induction rest generalizing sc queue v with
  | nil =>
    obtain rfl := Option.some.inj hrun
    exact htended
  | cons i rest ih =>
    obtain ⟨hi, hnodup'⟩ := List.nodup_cons.1 hnodup
    rcases resumeSlots_cases hready hrun with ⟨-, rfl⟩ |
      ⟨hcalm, ⟨hnone, hlater⟩ | ⟨slot, reacted, hslot, hgo, hcases⟩⟩
    · exact htended
    · exact ih hnodup' hsound htended (.inr (hcalm.pass hnone)) hlater
    · have hw : Station.Ready fitter ⟨sc, i, slot, rest, owed, queue⟩ := ⟨hsound, hslot⟩
      have hv := (hw.goOn hf hd ha hcalm hi hgo).visited hcalm.brisk.running
      have hnow : (sc.engine.visited i reacted).engine.Tended :=
        htended.visited (hw.tends_goOn hf hd ht ha hat hcalm htended hgo)
      obtain ⟨lore, hcourse, -⟩ := hv.course
      dsimp only at hcourse hv
      rcases hcases with ⟨f, -, rfl⟩ | ⟨hresult, later, hlater, rfl⟩
      · exact hnow
      · exact @ih hnodup' ⟨_, _, lore⟩ (hcourse.sound hf hsound) hnow _ (hv.ok hresult) later hlater

/-- The nets within a net that has gone on after a pause are alive. -/
theorem resume_tending (hf : fitter.Regular) (fuel : Nat) : Again.Tending fitter (resume fuel) := by
  induction fuel with
  | zero =>
    intro sc run _ _ hrun
    cases hrun
  | succ fuel ih =>
    intro sc run hsound hasleep hrun
    have hpaused : sc.engine.status = .paused := hasleep.here.paused
    have hd := drive_proper hf fuel
    have ht := drive_tending hf fuel
    have ha := resume_proper hf fuel
    have hwoken : Course sc [] ⟨{ sc.engine.activate with status := .running }, sc.supply,
        sc.lore⟩ := Course.of_act (.woken hpaused)
    have hsound' := hwoken.sound hf hsound
    obtain ⟨v, hv, hcases⟩ := resume_cases hpaused hrun
    have hvisit := @resumeSlots_proper _ _ _ fuel hf hd ha (List.range sc.engine.slots.length)
      List.nodup_range ⟨{ sc.engine.activate with status := .running }, sc.supply, sc.lore⟩
      hsound' sc.engine.held [] (.inr hasleep.wake) v hv
    have htended := @resumeSlots_tended _ _ _ fuel hf hd ht ha ih
      (List.range sc.engine.slots.length) List.nodup_range
      ⟨{ sc.engine.activate with status := .running }, sc.supply, sc.lore⟩ hsound'
      hasleep.tended.woken sc.engine.held [] (.inr hasleep.wake) v hv
    rcases hcases with ⟨f, -, rfl⟩ | ⟨hresult, last, hlast, rfl⟩
    · exact htended
    · obtain ⟨lore, hcourse, hready, hknown⟩ := hvisit.offered hresult (held_known hsound)
      exact ht ⟨_, _, lore⟩ _ last (hcourse.sound hf hsound') (htended.acceptAll _) hready hknown
        hlast

end Engine
end RecipeNet
