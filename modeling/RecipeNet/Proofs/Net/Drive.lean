import RecipeNet.Proofs.Net.Launch

/-!
Working off notices, and reporting an activity. Each notice is attended to by
its step, what the step puts into places joins the queue, and when the queue is
empty the net is awake. A request of the outside that does not suit the net is
refused without any act.
-/

namespace RecipeNet

structure Engine.Visit.Proper (sc : Scene) (asleep : List Nat) (owed : List (Nat × Token))
    (queue : List Engine.Notice) (v : Engine.Visit) : Prop where
  course : ∃ lore, Course sc v.events ⟨v.engine, v.supply, lore⟩ ∧
    ∀ n ∈ v.notices, n.token ∈ lore
  ok : v.result = .ok () → v.engine.status = .completed ∨
    v.engine.Alert [] asleep owed (queue ++ v.notices)
  error : ∀ f, v.result = .error f → f.halts = true ∧ v.engine.status = .halted ∧
    v.engine.haltedBy = some f

namespace Station

variable {fitter : Fitter} {w : Station} {reacted : Reacted} {drive : Drive} {fuel : Nat}

/-- A fine reaction is taken over by the net. -/
theorem Fine.visited (h : w.Fine reacted) (running : w.scene.engine.status = .running) :
    (w.scene.engine.visited w.i reacted).Proper w.scene w.asleep w.owed w.queue := by
  obtain ⟨r, tr, s, result⟩ := reacted
  cases result with
  | error f =>
    obtain ⟨hhalts, lore, hcourse⟩ := h.error f rfl
    have hhalted : (w.engine r tr).status = .running := running
    refine ⟨⟨lore, hcourse, List.forall_mem_nil _⟩, nofun, fun f' hfault => ?_⟩
    obtain rfl := Except.error.inj hfault
    exact ⟨hhalts, Engine.status_halt hhalts hhalted⟩
  | ok u =>
    obtain ⟨lore, hunder, halert⟩ := h.ok rfl
    have haccept : Course ⟨w.engine r tr, s, lore⟩ _ _ := Engine.acceptAll_course hunder.known
    refine ⟨⟨lore, hunder.course.trans haccept, Engine.notices_known hunder.known⟩,
      fun _ => halert.accepted, nofun⟩

/-- A notice does nothing at a step whose nested plan does not run, or the token goes in. -/
theorem Ready.idle_cases (hf : fitter.Regular) (hw : w.Ready fitter) {k : Nat} {t : Token}
    {nest : Nest} (calm : w.scene.engine.Alert [] w.asleep w.owed (⟨w.i, k, t⟩ :: w.queue))
    (htr : w.slot.transition = .idle nest)
    (harrive : (Transition.idle nest).arrive drive fuel (w.scene.engine.reaction w.slot) k t
      w.scene.supply = some reacted) :
    (w.scene.engine.reaction w.slot).holds k t = false ∧
      reacted = ⟨w.scene.engine.reaction w.slot, .idle nest, w.scene.supply, .ok ()⟩ ∨
    w.Underway (w.scene.engine.reaction w.slot) (.idle nest) w.scene.supply w.scene.lore ∧
      (w.scene.engine.reaction w.slot).holds 0 t = true ∧
      nest.launch drive fuel (w.scene.engine.reaction w.slot) t w.scene.supply = some reacted := by
  simp only [Transition.arrive] at harrive
  by_cases hheld : (w.scene.engine.reaction w.slot).holds k t = true
  · have hsuits := hw.suits hf
    rw [htr] at hsuits
    obtain ⟨hone, -⟩ := hsuits
    obtain ⟨place, -, hk, -, -⟩ := Reaction.holds_iff.1 hheld
    have hlt := (List.getElem?_eq_some_iff.1 hk).1
    change k < w.slot.inputs.length at hlt
    obtain rfl : k = 0 := by omega
    have hstart := hw.start calm.attend
    rw [htr] at hstart
    rw [if_pos hheld] at harrive
    exact .inr ⟨hstart, hheld, harrive⟩
  · rw [if_neg hheld] at harrive
    exact .inl ⟨by simpa using hheld, (Option.some.inj harrive).symm⟩

/-- What becomes of a notice, whatever the step is. -/
theorem Ready.arrive (hf : fitter.Regular) (hd : drive.Proper fitter) (hw : w.Ready fitter)
    (hawake : w.i ∉ w.asleep) {k : Nat} {t : Token}
    (calm : w.scene.engine.Alert [] w.asleep w.owed (⟨w.i, k, t⟩ :: w.queue))
    (known : t ∈ w.scene.lore)
    (harrive : w.slot.transition.arrive drive fuel (w.scene.engine.reaction w.slot) k t
      w.scene.supply = some reacted) : w.Fine reacted := by
  cases htr : w.slot.transition with
  | pass output =>
    rw [htr] at harrive
    exact hw.arrive_pass hf calm known htr harrive
  | split =>
    rw [htr] at harrive
    exact hw.arrive_split hf calm known htr harrive
  | join inputs pending =>
    rw [htr] at harrive
    exact hw.arrive_join hf calm known htr harrive
  | task activity held =>
    rw [htr] at harrive
    exact hw.arrive_task hf calm known htr harrive
  | routed rule seen =>
    rw [htr] at harrive
    exact hw.arrive_routed hf calm known htr harrive
  | idle nest =>
    rw [htr] at harrive
    rcases hw.idle_cases hf calm htr harrive with ⟨hunheld, rfl⟩ | ⟨hstart, hheld, hlaunch⟩
    · rw [← htr]
      exact hw.fine_idle calm fun _ => hunheld
    · exact hstart.fine_launch hf hd hw hawake fuel hheld known hlaunch
  | busy nest u child =>
    simp only [htr, Transition.arrive, Option.some.injEq] at harrive
    subst harrive
    rw [← htr]
    exact hw.fine_idle calm fun heager => by rw [htr] at heager; cases heager

end Station

namespace Engine

variable {fitter : Fitter}

/-- A visit that went well is followed by the rest of the queue. -/
theorem Visit.Proper.andThen {drive : Drive} (hf : fitter.Regular) (hd : drive.Proper fitter)
    {sc : Scene} (hsound : sc.Sound fitter) {queue : List Notice} {v : Visit}
    (hv : v.Proper sc [] [] queue) (hqueue : ∀ n ∈ queue, n.token ∈ sc.lore) {run : Run}
    (hrun : v.andThen drive queue = some run) : run.Proper sc := by
  obtain ⟨lore, hcourse, hnotices⟩ := hv.course
  unfold Visit.andThen at hrun
  cases hresult : v.result with
  | error f =>
    simp only [hresult, Option.some.injEq] at hrun
    subst hrun
    refine ⟨⟨lore, hcourse⟩, nofun, fun f' hfault => ?_⟩
    obtain rfl := Except.error.inj hfault
    exact hv.error f hresult
  | ok u =>
    simp only [hresult] at hrun
    obtain ⟨rest, hrest, rfl⟩ := Option.map_eq_some_iff.1 hrun
    have hknown : ∀ n ∈ queue ++ v.notices, n.token ∈ lore := by
      intro n hn
      rcases List.mem_append.1 hn with hold | hnew
      · exact hcourse.lore_mono (hqueue n hold)
      · exact hnotices n hnew
    have hproper := hd ⟨v.engine, v.supply, lore⟩ _ rest (hcourse.sound hf hsound)
      (hv.ok hresult) hknown hrest
    exact hproper.after hcourse

/-- Working off notices is over at once, or it drops the first notice, or it attends to it
and goes on with the rest. -/
theorem drive_cases {fuel : Nat} {e : Engine} {queue : List Notice} {s : Supply} {run : Run}
    (hready : e.status = .completed ∨ e.Alert [] [] [] queue)
    (hrun : drive (fuel + 1) e queue s = some run) :
    (run = ⟨e, s, [], .ok ()⟩ ∧ (e.status = .completed ∨ queue = [])) ∨
    ∃ n rest, queue = n :: rest ∧ e.Alert [] [] [] (n :: rest) ∧
      (e.slots[n.slot]? = none ∧ drive fuel e rest s = some run ∨
        ∃ slot reacted, e.slots[n.slot]? = some slot ∧
          slot.transition.arrive (drive fuel) fuel (e.reaction slot) n.input n.token s =
            some reacted ∧
          (e.visited n.slot reacted).andThen (drive fuel) rest = some run) := by
  cases queue with
  | nil => exact .inl ⟨(Option.some.inj hrun).symm, .inr rfl⟩
  | cons n rest =>
    simp only [drive] at hrun
    rcases hready with hcompleted | hcalm
    · rw [if_pos (by rw [hcompleted]; exact fun h => by cases h)] at hrun
      exact .inl ⟨(Option.some.inj hrun).symm, .inl hcompleted⟩
    · refine .inr ⟨n, rest, rfl, hcalm, ?_⟩
      rw [if_neg (not_not.2 hcalm.brisk.running)] at hrun
      cases hslot : e.slots[n.slot]? with
      | none =>
        simp only [hslot] at hrun
        exact .inl ⟨rfl, hrun⟩
      | some slot =>
        have hactive := hcalm.brisk.active slot (List.mem_of_getElem? hslot)
        simp only [hslot, hactive, ne_eq, not_true, if_false] at hrun
        split at hrun
        · cases hrun
        · rename_i reacted harrive
          exact .inr ⟨slot, reacted, rfl, harrive, hrun⟩

/-- Notices are worked off properly, however many cascades they set off. -/
theorem drive_proper (hf : fitter.Regular) (fuel : Nat) : Drive.Proper fitter (drive fuel) := by
  induction fuel with
  | zero =>
    intro sc queue run _ _ _ hrun
    cases hrun
  | succ fuel ih =>
    intro sc queue run hsound hready hqueue hrun
    rcases drive_cases hready hrun with ⟨rfl, hend⟩ |
      ⟨n, rest, rfl, hcalm, ⟨hnone, hlater⟩ | ⟨slot, reacted, hslot, harrive, hlater⟩⟩
    · refine ⟨⟨sc.lore, .nil sc⟩, fun _ => ?_, nofun⟩
      rcases hend with hcompleted | rfl
      · exact .inl hcompleted
      · exact hready.imp id Alert.awake
    · exact ih sc rest run hsound (.inr (hcalm.drop hnone))
        (fun m hm => hqueue m (List.mem_cons_of_mem _ hm)) hlater
    · have hw : Station.Ready fitter ⟨sc, n.slot, slot, [], [], rest⟩ := ⟨hsound, hslot⟩
      have hfine := hw.arrive hf ih List.not_mem_nil hcalm (hqueue n List.mem_cons_self) harrive
      exact (hfine.visited hcalm.brisk.running).andThen hf ih hsound
        (fun m hm => hqueue m (List.mem_cons_of_mem _ hm)) hlater

/-- A new net that is given its start token. -/
theorem startWith_proper (hf : fitter.Regular) {fuel : Nat} {e : Engine} {t : Token} {s : Supply}
    {lore : Lore} (hb : e.Built fitter e.plan)
    (hsound : Scene.Sound fitter ⟨e.entered t, s, lore⟩) (known : t ∈ lore)
    {run : Run} (hrun : startWith fuel e t s = some run) : run.Proper ⟨e.entered t, s, lore⟩ := by
  have hmade : ∀ x ∈ [(e.startPlace, t)], x.2 ∈ lore := List.forall_mem_singleton.2 known
  have hcourse : Course ⟨e.entered t, s, lore⟩ _ _ := acceptAll_course hmade
  simp only [startWith, enter_created hb.status] at hrun
  obtain ⟨rest, hrest, rfl⟩ := Option.map_eq_some_iff.1 hrun
  exact (drive_proper hf fuel _ _ rest (hcourse.sound hf hsound) (hb.ready_entered t)
    (notices_known hmade) hrest).after hcourse

end Engine
end RecipeNet
