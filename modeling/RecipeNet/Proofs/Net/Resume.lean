import RecipeNet.Proofs.Net.Report

/-!
Going on after a pause. The steps go on in turn, nested nets first among
themselves; then every token that was in a place at the beginning is offered
once more. As long as a token of that time has not been offered it is owed, so
the net around the steps is alert all the while.
-/

namespace RecipeNet

def Again.Proper (fitter : Fitter) (again : Engine → Supply → Option Run) : Prop :=
  ∀ (sc : Scene) (run : Run), sc.Sound fitter → sc.engine.Asleep →
    again sc.engine sc.supply = some run → run.Proper sc

theorem announce_all (activity : String) (held : List Token) (r : Reaction) :
    held.foldl (announce · activity ·) r =
      { r with events := r.events ++ held.map (.started (.ofStep r.step) activity) } := by
  induction held generalizing r with
  | nil => exact (Station.silent r).symm
  | cons t rest ih =>
    rw [List.foldl_cons, ih]
    simp only [announce, Reaction.raise, List.map_cons, List.append_assoc, List.singleton_append]

namespace Engine

variable {e : Engine} {i : Nat} {rest : List Nat} {owed : List (Nat × Token)}
  {queue : List Notice}

/-- The next step to go on sets to work. -/
theorem Alert.rouse (h : e.Alert [] (i :: rest) owed queue) : e.Alert [i] rest owed queue := by
  refine ⟨h.setOut.brisk, fun j slot nest t child hj hat ht => ?_⟩
  have hnested := h.nested j slot nest t child List.not_mem_nil hat ht
  have hother : j ≠ i := fun heq => hj (List.mem_singleton.2 heq)
  by_cases hrest : j ∈ rest
  · rw [if_pos (List.mem_cons_of_mem i hrest)] at hnested
    rw [if_pos hrest]
    exact hnested
  · rw [if_neg fun hmem => (List.mem_cons.1 hmem).elim hother hrest] at hnested
    rw [if_neg hrest]
    exact hnested

/-- A step that is not there has nothing to go on with. -/
theorem Alert.pass (h : e.Alert [] (i :: rest) owed queue) (hnone : e.slots[i]? = none) :
    e.Alert [] rest owed queue := by
  refine ⟨h.brisk, fun j slot nest t child _ hat ht => ?_⟩
  have hother : j ∉ [i] := by
    intro hmem
    rw [List.mem_singleton.1 hmem, hnone] at hat
    cases hat
  exact h.rouse.nested j slot nest t child hother hat ht

theorem entries_held (e : Engine) : entries e.held = stock e.holdings := by
  simp only [entries, stock, spread, spreadFrom, held, Multiset.map_coe]

/-- A net that wakes up owes its steps all the tokens that it holds. -/
theorem Asleep.wake (h : e.Asleep) :
    Alert [] (List.range e.slots.length) e.held [] { e.activate with status := .running } := by
  have hdrowsy : e.Drowsy := h.here
  have howed : ∀ x, (stock e.holdings).count x ≤ (entries e.held).count x := by
    intro x
    rw [entries_held]
  refine ⟨⟨rfl, ?_, hdrowsy.completion, hdrowsy.haltedBy, fun p hold _ _ id => howed _,
    fun j slot _ _ _ k p _ id => Nat.le_add_left_of_le (howed _)⟩, ?_⟩
  · intro slot hs
    obtain ⟨old, hold, rfl⟩ := List.mem_map.1 hs
    change old.phase.activate = .active
    rw [hdrowsy.phases old hold]
    rfl
  · intro j slot nest t child _ hat ht
    change e.activate.slots[j]? = some slot at hat
    have hlt := (List.getElem?_eq_some_iff.1 hat).1
    simp only [activate, List.length_map] at hlt
    rw [if_pos (List.mem_range.2 hlt)]
    obtain ⟨old, hold, htr⟩ := mem_activate (List.mem_of_getElem? hat)
    exact h.child hold (htr ▸ ht)

end Engine

namespace Station

variable {fitter : Fitter} {w : Station} {again : Engine → Supply → Option Run} {drive : Drive}
  {fuel : Nat} {reacted : Reacted}

/-- A task reports the tokens that it holds, and is still served. -/
theorem Ready.fine_announced (hw : w.Ready fitter)
    (calm : w.scene.engine.Alert [] (w.i :: w.asleep) w.owed w.queue) {activity : String}
    {held : List Token} (htr : w.slot.transition = .task activity held) :
    w.Fine ⟨held.foldl (announce · activity ·) (w.scene.engine.reaction w.slot),
      w.slot.transition, w.scene.supply, .ok ()⟩ := by
  have hstart := hw.start calm.rouse
  have act : Act ⟨w.engine (w.scene.engine.reaction w.slot) w.slot.transition,
      w.scene.supply, w.scene.lore⟩ _ _ :=
    .announced hstart.running (hw.stands_now _ w.slot.transition) htr
  have hcourse : Course ⟨w.engine (w.scene.engine.reaction w.slot) w.slot.transition,
      w.scene.supply, w.scene.lore⟩ (held.map (.started (.ofStep w.slot.step) activity))
      ⟨w.engine (w.scene.engine.reaction w.slot) w.slot.transition, w.scene.supply,
        w.scene.lore⟩ := Course.of_act act
  rw [announce_all]
  have hdone : w.Underway { w.scene.engine.reaction w.slot with
      events := held.map (.started (.ofStep w.slot.step) activity) } w.slot.transition
      w.scene.supply w.scene.lore :=
    hstart.advance [] ⟨rfl, rfl, rfl, rfl⟩ hcourse rfl (List.append_nil _).symm
      (List.forall_mem_nil _) fun x => Nat.le_add_right _ _
  refine hdone.fine hw (fun heager k p hk id => ?_) fun nest t child hbusy => ?_
  · have hserved := calm.brisk.served w.i w.slot List.not_mem_nil hw.stands heager k p hk id
    simpa only [Engine.reaction, List.append_nil] using hserved
  · rw [htr] at hbusy
    cases hbusy

/-- How a step goes on. -/
theorem Ready.goOn (hf : fitter.Regular) (hd : drive.Proper fitter)
    (ha : Again.Proper fitter again) (hw : w.Ready fitter)
    (calm : w.scene.engine.Alert [] (w.i :: w.asleep) w.owed w.queue) (hi : w.i ∉ w.asleep)
    (hgo : Engine.goOn again drive fuel w.slot (w.scene.engine.reaction w.slot) w.scene.supply =
      some reacted) : w.Fine reacted := by
  have hstart := hw.start calm.rouse
  unfold Engine.goOn at hgo
  split at hgo
  · rename_i activity held htr
    obtain rfl := Option.some.inj hgo
    exact hw.fine_announced calm htr
  · rename_i nest t child htr
    split at hgo
    · cases hgo
    rename_i run hrun
    have hmem := List.mem_of_getElem? hw.stands
    have hasleep := calm.nested w.i w.slot nest t child List.not_mem_nil hw.stands htr
    rw [if_pos List.mem_cons_self] at hasleep
    have hproper := ha ⟨child, w.scene.supply, w.scene.lore.below w.slot.step⟩ run
      (hw.sound.child hmem htr) hasleep hrun
    rw [htr] at hstart
    exact hstart.fine_settle hf hw hi hasleep.not_completed hproper
      (fun r' waiting s' lore' hidle hheld hlore hagain =>
        hidle.fine_launch hf hd hw hi fuel hheld hlore hagain) hgo
  · rename_i htask hbusy
    obtain rfl := Option.some.inj hgo
    refine hstart.fine hw (fun heager k p hk id => ?_) fun nest t child hnest =>
      absurd hnest (hbusy nest t child)
    have hserved := calm.brisk.served w.i w.slot List.not_mem_nil hw.stands heager k p hk id
    simpa only [Engine.reaction, List.append_nil] using hserved

end Station

namespace Engine

variable {fitter : Fitter} {again : Engine → Supply → Option Run} {drive : Drive} {fuel : Nat}

/-- When steps go on in turn, the net may have ended, or the first step is not there, or it
goes on and then the others do, unless it fails. -/
theorem resumeSlots_cases {e : Engine} {s : Supply} {i : Nat} {rest : List Nat}
    {owed : List (Nat × Token)} {queue : List Notice} {v : Visit}
    (hready : e.status = .completed ∨ e.Alert [] (i :: rest) owed queue)
    (hrun : resumeSlots again drive fuel e s (i :: rest) = some v) :
    (e.status = .completed ∧ v = ⟨e, [], s, [], .ok ()⟩) ∨
    e.Alert [] (i :: rest) owed queue ∧
      (e.slots[i]? = none ∧ resumeSlots again drive fuel e s rest = some v ∨
        ∃ slot reacted, e.slots[i]? = some slot ∧
          goOn again drive fuel slot (e.reaction slot) s = some reacted ∧
          ((∃ f, (e.visited i reacted).result = .error f ∧ v = e.visited i reacted) ∨
            (e.visited i reacted).result = .ok () ∧ ∃ later,
              resumeSlots again drive fuel (e.visited i reacted).engine
                (e.visited i reacted).supply rest = some later ∧
              v = { later with
                notices := (e.visited i reacted).notices ++ later.notices
                events := (e.visited i reacted).events ++ later.events })) := by
  unfold resumeSlots at hrun
  rcases hready with hcompleted | hcalm
  · rw [if_pos (by rw [hcompleted]; exact fun h => by cases h)] at hrun
    exact .inl ⟨hcompleted, (Option.some.inj hrun).symm⟩
  refine .inr ⟨hcalm, ?_⟩
  rw [if_neg (not_not.2 hcalm.brisk.running)] at hrun
  cases hslot : e.slots[i]? with
  | none =>
    simp only [hslot] at hrun
    exact .inl ⟨rfl, hrun⟩
  | some slot =>
    simp only [hslot] at hrun
    split at hrun
    · cases hrun
    rename_i reacted hgo
    refine .inr ⟨slot, reacted, rfl, hgo, ?_⟩
    cases hresult : (e.visited i reacted).result with
    | error f =>
      simp only [hresult, Option.some.injEq] at hrun
      refine .inl ⟨f, rfl, ?_⟩
      rw [← hrun, ← hresult]
    | ok u =>
      simp only [hresult] at hrun
      split at hrun
      · cases hrun
      rename_i later hlater
      exact .inr ⟨rfl, later, hlater, (Option.some.inj hrun).symm⟩

/-- The steps go on in turn, each with what those before it have left. -/
theorem resumeSlots_proper (hf : fitter.Regular) (hd : drive.Proper fitter)
    (ha : Again.Proper fitter again) (rest : List Nat) (hnodup : rest.Nodup) {sc : Scene}
    (hsound : sc.Sound fitter) {owed : List (Nat × Token)}
    {queue : List Notice}
    (hready : sc.engine.status = .completed ∨ sc.engine.Alert [] rest owed queue) {v : Visit}
    (hrun : resumeSlots again drive fuel sc.engine sc.supply rest = some v) :
    v.Proper sc [] owed queue := by
  induction rest generalizing sc queue v with
  | nil =>
    unfold resumeSlots at hrun
    obtain rfl := Option.some.inj hrun
    refine ⟨⟨sc.lore, .nil sc, List.forall_mem_nil _⟩, fun _ => ?_, nofun⟩
    rw [List.append_nil]
    exact hready
  | cons i rest ih =>
    obtain ⟨hi, hnodup'⟩ := List.nodup_cons.1 hnodup
    rcases resumeSlots_cases hready hrun with ⟨hcompleted, rfl⟩ |
      ⟨hcalm, ⟨hnone, hlater⟩ | ⟨slot, reacted, hslot, hgo, hcases⟩⟩
    · exact ⟨⟨sc.lore, .nil sc, List.forall_mem_nil _⟩, fun _ => .inl hcompleted, nofun⟩
    · exact ih hnodup' hsound (.inr (hcalm.pass hnone)) hlater
    · have hw : Station.Ready fitter ⟨sc, i, slot, rest, owed, queue⟩ := ⟨hsound, hslot⟩
      have hv := (hw.goOn hf hd ha hcalm hi hgo).visited hcalm.brisk.running
      obtain ⟨lore, hcourse, hnotices⟩ := hv.course
      dsimp only at hcourse hnotices hv
      rcases hcases with ⟨f, hresult, rfl⟩ | ⟨hresult, later, hlater, rfl⟩
      · refine ⟨⟨lore, hcourse, hnotices⟩, fun hok => ?_, hv.error⟩
        cases hresult.symm.trans hok
      · have hlast := @ih hnodup' ⟨_, _, lore⟩ (hcourse.sound hf hsound) _ (hv.ok hresult) _ hlater
        obtain ⟨lore', hcourse', hnotices'⟩ := hlast.course
        refine ⟨⟨lore', hcourse.trans hcourse', fun n hn => ?_⟩, fun hok => ?_, hlast.error⟩
        · rcases List.mem_append.1 hn with hold | hnew
          · exact hcourse'.lore_mono (hnotices n hold)
          · exact hnotices' n hnew
        · have hend := hlast.ok hok
          rw [List.append_assoc] at hend
          exact hend

/-- Offering all tokens that are owed. -/
theorem accepted_all {e : Engine} {made : List (Nat × Token)} {queue : List Notice}
    (h : e.status = .completed ∨ e.Alert [] [] made queue) :
    (e.acceptAll made).1.status = .completed ∨
      (e.acceptAll made).1.Alert [] [] [] (queue ++ (e.acceptAll made).2.1) := by
  rcases h with hcompleted | halert
  · rw [acceptAll_of_not_running (by rw [hcompleted]; exact fun h => by cases h)]
    exact .inl hcompleted
  · have halert' : e.Alert [] [] ([] ++ made) queue := halert
    exact halert'.accepted

/-- When the steps have gone on well, the net takes note of what it owes them. -/
theorem Visit.Proper.offered {sc : Scene} {made : List (Nat × Token)} {v : Visit}
    (hv : v.Proper sc [] made []) (ok : v.result = .ok ()) (known : ∀ x ∈ made, x.2 ∈ sc.lore) :
    ∃ lore, Course sc (v.events ++ (v.engine.acceptAll made).2.2)
        ⟨(v.engine.acceptAll made).1, v.supply, lore⟩ ∧
      ((v.engine.acceptAll made).1.status = .completed ∨
        (v.engine.acceptAll made).1.Alert [] [] []
          (v.notices ++ (v.engine.acceptAll made).2.1)) ∧
      ∀ n ∈ v.notices ++ (v.engine.acceptAll made).2.1, n.token ∈ lore := by
  obtain ⟨lore, hcourse, hnotices⟩ := hv.course
  have hknown : ∀ x ∈ made, x.2 ∈ lore := fun x hx => hcourse.lore_mono (known x hx)
  have hready := hv.ok ok
  rw [List.nil_append] at hready
  refine ⟨lore, hcourse.trans (acceptAll_course hknown), accepted_all hready, fun n hn => ?_⟩
  rcases List.mem_append.1 hn with hold | hnew
  · exact hnotices n hold
  · exact notices_known hknown n hnew

/-- A paused net lets its steps go on, and then, unless one of them fails, offers the tokens
once more that it has held. -/
theorem resume_cases {e : Engine} {s : Supply} {run : Run} (paused : e.status = .paused)
    (hrun : resume (fuel + 1) e s = some run) :
    ∃ v, resumeSlots (resume fuel) (Engine.drive fuel) fuel
        { e.activate with status := .running } s (List.range e.slots.length) = some v ∧
      ((∃ f, v.result = .error f ∧ run = ⟨v.engine, v.supply, v.events, .error f⟩) ∨
        v.result = .ok () ∧ ∃ last,
          Engine.drive fuel (v.engine.acceptAll e.held).1
            (v.notices ++ (v.engine.acceptAll e.held).2.1) v.supply = some last ∧
          run = last.after (v.events ++ (v.engine.acceptAll e.held).2.2)) := by
  unfold resume at hrun
  rw [if_neg (not_not.2 paused)] at hrun
  dsimp only at hrun
  have hlength : e.activate.slots.length = e.slots.length := by
    simp only [activate, List.length_map]
  rw [hlength] at hrun
  split at hrun
  · cases hrun
  rename_i v hv
  refine ⟨v, hv, ?_⟩
  cases hresult : v.result with
  | error f =>
    simp only [hresult, Option.some.injEq] at hrun
    exact .inl ⟨f, rfl, hrun.symm⟩
  | ok u =>
    simp only [hresult] at hrun
    obtain ⟨last, hlast, rfl⟩ := Option.map_eq_some_iff.1 hrun
    exact .inr ⟨rfl, last, hlast, rfl⟩

/-- The tokens that a net holds are known. -/
theorem held_known {sc : Scene} (h : sc.Sound fitter) : ∀ x ∈ sc.engine.held, x.2 ∈ sc.lore :=
  fun x hx => h.informed.spread (x := x) (Multiset.mem_coe.2 hx)

/-- A paused net goes on properly, and with it the nets within. -/
theorem resume_proper (hf : fitter.Regular) (fuel : Nat) : Again.Proper fitter (resume fuel) := by
  induction fuel with
  | zero =>
    intro sc run _ _ hrun
    cases hrun
  | succ fuel ih =>
    intro sc run hsound hasleep hrun
    have hd := drive_proper hf fuel
    have hpaused : sc.engine.status = .paused := hasleep.here.paused
    have hwoken : Course sc [] ⟨{ sc.engine.activate with status := .running }, sc.supply,
        sc.lore⟩ := Course.of_act (.woken hpaused)
    obtain ⟨v, hv, hcases⟩ := resume_cases hpaused hrun
    have hvisit := @resumeSlots_proper _ _ _ fuel hf hd ih (List.range sc.engine.slots.length)
      List.nodup_range ⟨{ sc.engine.activate with status := .running }, sc.supply, sc.lore⟩
      (hwoken.sound hf hsound) sc.engine.held [] (.inr hasleep.wake) v hv
    rcases hcases with ⟨f, hresult, rfl⟩ | ⟨hresult, last, hlast, rfl⟩
    · obtain ⟨lore, hcourse, -⟩ := hvisit.course
      refine ⟨⟨lore, hwoken.trans hcourse⟩, fun hok => (by cases hok), fun f' hfault => ?_⟩
      obtain rfl := Except.error.inj hfault
      exact hvisit.error f hresult
    · obtain ⟨lore, hcourse, hready, hknown⟩ := hvisit.offered hresult (held_known hsound)
      have hall := hwoken.trans hcourse
      exact (hd ⟨_, _, lore⟩ _ last (hall.sound hf hsound) hready hknown hlast).after hall

end Engine
end RecipeNet
