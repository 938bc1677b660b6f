import RecipeNet.Proofs.Net.Tending
import RecipeNet.Proofs.Snapshot.Waking

/-!
What a net waits for. A task that takes a token reports it, at whatever depth, and every
net around passes the report on with the task's address; a net that goes on after a pause
reports everything once more that its tasks hold.
-/

namespace RecipeNet

/-- A step waits for the activity of a token, itself or within the net that it runs: by
the steps that lead to the task, with the number of outputs of the task. -/
inductive Slot.Awaits : Slot → List String → String → Token → Nat → Prop
  | task {slot : Slot} {activity : String} {held : List Token} {t : Token}
      (task : slot.transition = .task activity held) (isHeld : t ∈ held) :
    Awaits slot [slot.step] activity t slot.outputs.length
  | nested {slot inner : Slot} {nest : Nest} {u : Token} {child : Engine} {path : List String}
      {activity : String} {t : Token} {outs : Nat} (busy : slot.transition = .busy nest u child)
      (stands : inner ∈ child.slots) (inside : Awaits inner path activity t outs) :
    Awaits slot (slot.step :: path) activity t outs

def Engine.Awaits (e : Engine) (path : List String) (activity : String) (t : Token) (outs : Nat) :
    Prop := ∃ slot ∈ e.slots, slot.Awaits path activity t outs

namespace Slot.Awaits

variable {slot other : Slot} {path : List String} {activity : String} {t : Token} {outs : Nat}

/-- What a step waits for does not depend on its phase and its inputs. -/
theorem congr (h : slot.Awaits path activity t outs) (step : other.step = slot.step)
    (outputs : other.outputs = slot.outputs) (transition : other.transition = slot.transition) :
    other.Awaits path activity t outs := by
  cases h with
  | task task isHeld =>
    rw [← step, ← outputs]
    exact .task (transition.trans task) isHeld
  | nested busy stands inside =>
    rw [← step]
    exact .nested (transition.trans busy) stands inside

/-- A step that waits is a task with tokens or runs a nested plan. -/
theorem cases_transition (h : slot.Awaits path activity t outs) :
    (∃ held, slot.transition = .task activity held ∧ t ∈ held ∧ path = [slot.step] ∧
      outs = slot.outputs.length) ∨
    ∃ nest u child rest, slot.transition = .busy nest u child ∧ path = slot.step :: rest ∧
      child.Awaits rest activity t outs := by
  cases h with
  | task task isHeld => exact .inl ⟨_, task, isHeld, rfl, rfl⟩
  | nested busy stands inside => exact .inr ⟨_, _, _, _, busy, rfl, _, stands, inside⟩

end Slot.Awaits

def Slot.Voiced (slot : Slot) (events : List Event) : Prop :=
  ∀ path activity t outs, slot.Awaits path activity t outs → .started ⟨path⟩ activity t ∈ events

/-- Everything that a net waits for has been reported among some events. -/
def Engine.Voiced (e : Engine) (events : List Event) : Prop :=
  ∀ path activity t outs, e.Awaits path activity t outs → .started ⟨path⟩ activity t ∈ events

namespace Engine

variable {fitter : Fitter} {plan : Plan} {e : Engine} {path : List String} {activity : String}
  {t : Token} {outs : Nat} {events : List Event}

theorem voiced_iff : e.Voiced events ↔ ∀ slot ∈ e.slots, slot.Voiced events :=
  ⟨fun h slot hs path activity t outs ha => h path activity t outs ⟨slot, hs, ha⟩,
    fun h path activity t outs ⟨slot, hs, ha⟩ => h slot hs path activity t outs ha⟩

theorem Awaits.halt {f : Fault} (h : (e.halt f).Awaits path activity t outs) :
    e.Awaits path activity t outs := by
  obtain ⟨slot, hs, ha⟩ := h
  rw [slots_halt] at hs
  exact ⟨slot, hs, ha⟩

/-- A net in which one step has changed waits for what it did, or for what the step does. -/
theorem Awaits.become {i : Nat} {hs : List Holding} {tr : Transition}
    (h : (e.become i hs tr).Awaits path activity t outs) : e.Awaits path activity t outs ∨
      ∃ old, e.slots[i]? = some old ∧
        Slot.Awaits { old with transition := tr } path activity t outs := by
  obtain ⟨slot, hslot, ha⟩ := h
  rcases mem_become hslot with hold | ⟨old, hat, rfl⟩
  · exact .inl ⟨slot, hold, ha⟩
  · exact .inr ⟨old, hat, ha⟩

/-- A net whose transitions are active waits for what it did. -/
theorem Awaits.woken (h : e.activate.Awaits path activity t outs) :
    e.Awaits path activity t outs := by
  obtain ⟨slot, hs, ha⟩ := h
  obtain ⟨old, hold, rfl⟩ := List.mem_map.1 hs
  exact ⟨old, hold, ha.congr rfl rfl rfl⟩

/-- A net that has just been started waits for nothing. -/
theorem Built.not_awaits (h : e.Built fitter plan) (start : Token) :
    ¬ (e.entered start).Awaits path activity t outs := by
  rintro ⟨slot, hs, ha⟩
  obtain ⟨old, hold, htr⟩ := mem_activate hs
  rcases ha.cases_transition with ⟨held, htask, hheld, -⟩ | ⟨nest, u, child, -, hbusy, -⟩
  · have hnone := (h.fresh hold).2.2
    rw [← htr, htask] at hnone
    obtain rfl : held = [] := hnone
    cases hheld
  · exact entered_vacant h start hs nest u child hbusy

end Engine

/-- What comes to be waited for in a net is reported by the act that makes it so. -/
theorem Act.awaits {sc sc' : Scene} {events : List Event} (h : Act sc events sc')
    {path : List String} {activity : String} {t : Token} {outs : Nat}
    (ha : sc'.engine.Awaits path activity t outs) :
    sc.engine.Awaits path activity t outs ∨ .started ⟨path⟩ activity t ∈ events := by
  induction h generalizing path with
  | woken => exact .inl ha.woken
  | @fired sc i slot firing r r' running stands fires =>
    rcases ha.become with hold | ⟨old, hat, hnew⟩
    · exact .inl hold
    obtain rfl := Option.some.inj (stands.symm.trans hat)
    have hmem := List.mem_of_getElem? stands
    generalize htr : slot.transition = tr at fires
    rcases hnew.cases_transition with ⟨held, htask, hheld, rfl, rfl⟩ |
      ⟨nest, u, child, rest, hbusy, rfl, hinside⟩
    · cases fires with
      | begin _ before _ u =>
        cases htask
        rcases List.mem_append.1 hheld with hbefore | hlast
        · exact .inl ⟨slot, hmem, .task htr hbefore⟩
        · obtain rfl := List.mem_singleton.1 hlast
          exact .inr (List.mem_cons_of_mem _ List.mem_cons_self)
      | pass | routed | split | join | launch => cases htask
    · cases fires with
      -- A net that has just been launched waits for nothing.
      | launch _ child _ built =>
        cases hbusy
        exact absurd hinside ((Engine.built_of_build built).not_awaits _)
      | pass | routed | split | join | begin => cases hbusy
  | seated | refreshed | closed =>
    rcases ha.become with hold | ⟨old, -, hnew⟩
    · exact .inl hold
    · rcases hnew.cases_transition with ⟨_, htask, -⟩ | ⟨_, _, _, _, hbusy, -⟩
      · cases htask
      · cases hbusy
  | botched | balked =>
    rcases ha.halt.become with hold | ⟨old, -, hnew⟩
    · exact .inl hold
    · rcases hnew.cases_transition with ⟨_, htask, -⟩ | ⟨_, _, _, _, hbusy, -⟩
      · cases htask
      · cases hbusy
  | refused | sunk => exact .inl ha.halt
  | @released sc i slot _ held u j output place running stands task =>
    rcases ha.become with hold | ⟨old, hat, hnew⟩
    · exact .inl hold
    obtain rfl := Option.some.inj (stands.symm.trans hat)
    rcases hnew.cases_transition with ⟨rest, htask, hheld, rfl, rfl⟩ | ⟨_, _, _, _, hbusy, -⟩
    · cases htask
      exact .inl ⟨slot, List.mem_of_getElem? stands, .task task (List.mem_of_mem_eraseIdx hheld)⟩
    · cases hbusy
  | announced | ended => exact .inl ha
  | @inside sc i slot nest u child child' events s' lore' running stands busy act ih =>
    rcases ha.become with hold | ⟨old, hat, hnew⟩
    · exact .inl hold
    obtain rfl := Option.some.inj (stands.symm.trans hat)
    rcases hnew.cases_transition with ⟨_, htask, -⟩ | ⟨nest', u', inner, rest, hbusy, rfl, hinside⟩
    · cases htask
    · cases hbusy
      rcases ih hinside with ⟨inner, hinner, hbefore⟩ | hreported
      · exact .inl ⟨slot, List.mem_of_getElem? stands, .nested busy hinner hbefore⟩
      · exact .inr (List.mem_filterMap.2 ⟨_, hreported, rfl⟩)

/-- What comes to be waited for is reported on the way. -/
theorem Course.awaits {sc sc' : Scene} {events : List Event} (h : Course sc events sc')
    {path : List String} {activity : String} {t : Token} {outs : Nat}
    (ha : sc'.engine.Awaits path activity t outs) :
    sc.engine.Awaits path activity t outs ∨ .started ⟨path⟩ activity t ∈ events := by
  induction h with
  | nil => exact .inl ha
  | cons act _ ih =>
    rcases ih ha with hmid | hlater
    · exact (act.awaits hmid).imp_right (List.mem_append_left _)
    · exact .inr (List.mem_append_right _ hlater)

/-- A net that has completed does nothing more. -/
theorem Course.over {sc sc' : Scene} {events : List Event} (h : Course sc events sc')
    (completed : sc.engine.status = .completed) : sc'.engine.status = .completed := by
  cases h with
  | nil => exact completed
  | cons act _ =>
    rcases act.live with hrunning | hpaused
    · cases completed.symm.trans hrunning
    · cases completed.symm.trans hpaused

theorem Course.voiced {sc sc' : Scene} {events before : List Event} (h : Course sc events sc')
    (hsc : sc.engine.Voiced before) : sc'.engine.Voiced (before ++ events) := by
  intro path activity t outs ha
  rcases h.awaits ha with hold | hnew
  · exact List.mem_append_left _ (hsc path activity t outs hold)
  · exact List.mem_append_right _ hnew

/-- What a net has reported that waits within a step is reported of the step. -/
theorem Slot.Voiced.of_child {slot : Slot} {nest : Nest} {u : Token} {child : Engine}
    {events reported : List Event} (h : child.Voiced events)
    (passed : ∀ e ∈ events, ∀ e', e.within slot.step = some e' → e' ∈ reported) :
    Slot.Voiced { slot with transition := .busy nest u child } reported := by
  intro path activity t outs ha
  rcases ha.cases_transition with ⟨held, htask, -⟩ | ⟨_, _, _, rest, hbusy, rfl, hinside⟩
  · cases htask
  · cases hbusy
    exact passed _ (h rest activity t outs hinside) _ rfl

theorem Slot.Voiced.of_idle {slot : Slot} {nest : Nest} {reported : List Event} :
    Slot.Voiced { slot with transition := .idle nest } reported := by
  intro path activity t outs ha
  rcases ha.cases_transition with ⟨held, htask, -⟩ | ⟨_, _, _, _, hbusy, -⟩
  · cases htask
  · cases hbusy

namespace Station

variable {fitter : Fitter} {w : Station} {r : Reaction} {s : Supply} {lore : Lore} {nest : Nest}
  {t : Token} {child : Engine} {reacted : Reacted} {drive : Drive}
  {again : Engine → Supply → Option Run} {fuel : Nat}

/-- What follows an operation on the nested net leaves nothing unreported that waits in a
net that has reported it. -/
theorem Underway.voices_settle (hf : fitter.Regular) (hw : w.Ready fitter)
    (h : w.Underway r (.busy nest t child) s lore) (hopen : child.status ≠ .completed) {run : Run}
    (hrun : run.Proper ⟨child, s, lore.below w.slot.step⟩)
    (voiced : run.engine.status = .completed ∨ run.engine.Voiced run.events)
    (hnext : ∀ r' waiting s' lore', w.Underway r' (.idle nest) s' lore' →
      r'.holds 0 waiting = true → waiting ∈ lore' →
      nest.launch drive fuel r' waiting s' = some reacted →
      Slot.Voiced { w.slot with transition := reacted.transition } reacted.reaction.events)
    (hsettle : nest.settle (nest.launch drive fuel) t run r = some reacted)
    (ok : reacted.result = .ok ()) :
    Slot.Voiced { w.slot with transition := reacted.transition } reacted.reaction.events := by
  have hreports := (Nest.settle_reports hsettle ok fun r' waiting s' hlaunch =>
    Nest.launch_reports hlaunch ok).2.2
  rw [h.step] at hreports
  rcases h.settles hf hw hopen hrun hsettle with
    ⟨r', s', lore', hidle, ⟨waiting, hheld, hlore, hagain⟩ | ⟨-, rfl⟩⟩ |
    ⟨r', lore', -, hstill, rfl⟩
  · exact hnext r' waiting s' lore' hidle hheld hlore hagain
  · exact .of_idle
  · exact .of_child (voiced.resolve_left hstill) hreports

/-- What waits in a net that is launched has been reported. -/
theorem Underway.voices_launch (hf : fitter.Regular) (hd : drive.Proper fitter)
    (hw : w.Ready fitter) (fuel : Nat) (h : w.Underway r (.idle nest) s lore)
    (held : r.holds 0 t = true) (known : t ∈ lore)
    (hlaunch : nest.launch drive fuel r t s = some reacted) (ok : reacted.result = .ok ()) :
    Slot.Voiced { w.slot with transition := reacted.transition } reacted.reaction.events := by
  refine h.launch_induction hf hw ?_ fuel held known hlaunch
  intro fuel t child start r s lore run hlaunched hnext hsettle
  have hrun := hlaunched.proper hf hd hw
  obtain ⟨_, hwhole⟩ := hrun.course
  have hsilent : (child.entered start).Voiced [] := fun path activity u outs ha =>
    absurd ha (hlaunched.built.not_awaits start)
  exact hlaunched.underway.voices_settle hf hw (fun hcompleted => by cases hcompleted) hrun
    (.inr (hwhole.voiced hsilent)) hnext hsettle ok

end Station

def Again.Voices (fitter : Fitter) (again : Engine → Supply → Option Run) : Prop :=
  ∀ (sc : Scene) (run : Run), sc.Sound fitter → sc.engine.Asleep →
    again sc.engine sc.supply = some run → run.result = .ok () →
      run.engine.status = .completed ∨ run.engine.Voiced run.events

namespace Station

variable {fitter : Fitter} {w : Station} {reacted : Reacted} {drive : Drive}
  {again : Engine → Supply → Option Run} {fuel : Nat}

/-- A step that goes on reports what waits in it. -/
theorem Ready.voices_goOn (hf : fitter.Regular) (hd : drive.Proper fitter)
    (ha : Again.Proper fitter again) (hv : Again.Voices fitter again) (hw : w.Ready fitter)
    (calm : w.scene.engine.Alert [] (w.i :: w.asleep) w.owed w.queue)
    (hgo : Engine.goOn again drive fuel w.slot (w.scene.engine.reaction w.slot) w.scene.supply =
      some reacted) (ok : reacted.result = .ok ()) :
    Slot.Voiced { w.slot with transition := reacted.transition } reacted.reaction.events := by
  unfold Engine.goOn at hgo
  split at hgo
  · rename_i activity held htr
    obtain rfl := Option.some.inj hgo
    intro path activity' t outs hwaits
    rw [announce_all]
    rcases hwaits.cases_transition with ⟨held', htask, hheld, rfl, -⟩ | ⟨_, _, _, _, hbusy, -⟩
    · cases htr.symm.trans htask
      exact List.mem_append_right _ (List.mem_map_of_mem hheld)
    · cases htr.symm.trans hbusy
  · rename_i nest t child htr
    split at hgo
    · cases hgo
    rename_i run hrun
    have hmem := List.mem_of_getElem? hw.stands
    have hasleep := calm.nested w.i w.slot nest t child List.not_mem_nil hw.stands htr
    rw [if_pos List.mem_cons_self] at hasleep
    have hinside := hw.sound.child hmem htr
    have hproper := ha ⟨child, w.scene.supply, w.scene.lore.below w.slot.step⟩ run hinside hasleep
      hrun
    have hresult := (Nest.settle_reports hgo ok fun r' waiting s' hlaunch =>
      Nest.launch_reports hlaunch ok).1
    have hvoiced := hv ⟨child, w.scene.supply, w.scene.lore.below w.slot.step⟩ run hinside hasleep
      hrun hresult
    have hstart := hw.start calm.rouse
    rw [htr] at hstart
    exact hstart.voices_settle hf hw hasleep.not_completed hproper hvoiced
      (fun r' waiting s' lore' hidle hheld hlore hagain =>
        hidle.voices_launch hf hd hw fuel hheld hlore hagain ok) hgo ok
  · rename_i htask hbusy
    obtain rfl := Option.some.inj hgo
    intro path activity t outs hwaits
    rcases hwaits.cases_transition with ⟨held, h, -⟩ | ⟨nest, u, child, _, h, -⟩
    · exact absurd h (htask activity held)
    · exact absurd h (hbusy nest u child)

end Station

namespace Engine

variable {fitter : Fitter} {again : Engine → Supply → Option Run} {drive : Drive} {fuel : Nat}

theorem slots_visited {e : Engine} {i : Nat} {reacted : Reacted} (ok : reacted.result = .ok ()) :
    (e.visited i reacted).engine.slots =
      (e.become i reacted.reaction.holdings reacted.transition).slots := by
  obtain ⟨r, tr, s, result⟩ := reacted
  obtain rfl : result = .ok () := ok
  exact slots_acceptAll _ r.produced

/-- The steps that have gone on have reported what waits in them, unless the net has ended. -/
theorem resumeSlots_voices (hf : fitter.Regular) (hd : drive.Proper fitter)
    (ha : Again.Proper fitter again) (hv : Again.Voices fitter again) (rest : List Nat)
    (hnodup : rest.Nodup) {sc : Scene} (hsound : sc.Sound fitter) {owed : List (Nat × Token)}
    {queue : List Notice}
    (hready : sc.engine.status = .completed ∨ sc.engine.Alert [] rest owed queue)
    {before : List Event} (hvoiced : ∀ j slot, sc.engine.slots[j]? = some slot → j ∉ rest →
      slot.Voiced before) {v : Visit}
    (hrun : resumeSlots again drive fuel sc.engine sc.supply rest = some v)
    (ok : v.result = .ok ()) :
    v.engine.status = .completed ∨ v.engine.Voiced (before ++ v.events) := by
  induction rest generalizing sc queue before v with
  | nil =>
    obtain rfl := Option.some.inj hrun
    refine .inr (voiced_iff.2 fun slot hs => ?_)
    obtain ⟨j, hj⟩ := List.mem_iff_getElem?.1 hs
    rw [List.append_nil]
    exact hvoiced j slot hj List.not_mem_nil
  | cons i rest ih =>
    obtain ⟨hi, hnodup'⟩ := List.nodup_cons.1 hnodup
    rcases resumeSlots_cases hready hrun with ⟨hcompleted, rfl⟩ |
      ⟨hcalm, ⟨hnone, hlater⟩ | ⟨slot, reacted, hslot, hgo, hcases⟩⟩
    · exact .inl hcompleted
    · refine ih hnodup' hsound (.inr (hcalm.pass hnone)) (fun j slot hj hrest => ?_) hlater ok
      refine hvoiced j slot hj fun hmem => ?_
      rcases List.mem_cons.1 hmem with rfl | hmem'
      · cases hnone.symm.trans hj
      · exact hrest hmem'
    · have hw : Station.Ready fitter ⟨sc, i, slot, rest, owed, queue⟩ := ⟨hsound, hslot⟩
      have hvisit := (hw.goOn hf hd ha hcalm hi hgo).visited hcalm.brisk.running
      obtain ⟨lore, hcourse, -⟩ := hvisit.course
      obtain ⟨hresult, hreports⟩ := sc.engine.visited_reports i reacted
      dsimp only at hcourse hvisit
      rcases hcases with ⟨f, hfault, rfl⟩ | ⟨hok, later, hlater, rfl⟩
      · cases hfault.symm.trans ok
      have hreacted : reacted.result = .ok () := hresult.symm.trans hok
      have hown := hw.voices_goOn hf hd ha hv hcalm hgo hreacted
      -- What waits in the other steps has been reported before, or will be when they go on.
      have hlast := @ih hnodup' ⟨_, _, lore⟩ (hcourse.sound hf hsound) _ (hvisit.ok hok)
        (before ++ (sc.engine.visited i reacted).events) (fun j other hj hrest => ?_) later hlater ok
      · rw [List.append_assoc] at hlast
        exact hlast
      · rw [slots_visited hreacted] at hj
        by_cases hij : i = j
        · subst hij
          obtain rfl := Option.some.inj ((become_slot _ _ hslot).symm.trans hj)
          intro path activity t outs hwaits
          exact List.mem_append_right _ (hreports _ (hown path activity t outs hwaits))
        · rw [become_slot_ne _ _ hij] at hj
          intro path activity t outs hwaits
          refine List.mem_append_left _ (hvoiced j other hj ?_ path activity t outs hwaits)
          exact fun hmem => (List.mem_cons.1 hmem).elim (fun heq => hij heq.symm) hrest

/-- A net that goes on after a pause reports everything that waits in it, unless it ends. -/
theorem resume_voices (hf : fitter.Regular) (fuel : Nat) : Again.Voices fitter (resume fuel) := by
  induction fuel with
  | zero =>
    intro sc run _ _ hrun
    cases hrun
  | succ fuel ih =>
    intro sc run hsound hasleep hrun ok
    have hpaused : sc.engine.status = .paused := hasleep.here.paused
    have hd := drive_proper hf fuel
    have ha := resume_proper hf fuel
    have hwoken : Course sc [] ⟨{ sc.engine.activate with status := .running }, sc.supply,
        sc.lore⟩ := Course.of_act (.woken hpaused)
    have hsound' := hwoken.sound hf hsound
    obtain ⟨v, hv, hcases⟩ := resume_cases hpaused hrun
    have hvisit := @resumeSlots_proper _ _ _ fuel hf hd ha (List.range sc.engine.slots.length)
      List.nodup_range ⟨{ sc.engine.activate with status := .running }, sc.supply, sc.lore⟩
      hsound' sc.engine.held [] (.inr hasleep.wake) v hv
    rcases hcases with ⟨f, -, rfl⟩ | ⟨hresult, last, hlast, rfl⟩
    · cases ok
    have hvoices := @resumeSlots_voices _ _ _ fuel hf hd ha ih
      (List.range sc.engine.slots.length) List.nodup_range
      ⟨{ sc.engine.activate with status := .running }, sc.supply, sc.lore⟩ hsound'
      sc.engine.held [] (.inr hasleep.wake) [] (fun j slot hj hrange => ?_) v hv hresult
    · obtain ⟨lore, hcourse, hready, hknown⟩ := hvisit.offered hresult (held_known hsound)
      have hdriven := hd ⟨_, _, lore⟩ _ last (hcourse.sound hf hsound') hready hknown hlast
      obtain ⟨lore', hrest⟩ := hdriven.course
      rcases hvoices with hcompleted | hvoiced
      · left
        rw [acceptAll_of_not_running (by rw [hcompleted]; exact fun h => by cases h)] at hrest
        exact hrest.over hcompleted
      · right
        intro path activity t outs hwaits
        rcases hrest.awaits hwaits with ⟨slot, hs, hslot⟩ | hnew
        · rw [slots_acceptAll] at hs
          refine List.mem_append_left _ (List.mem_append_left _ ?_)
          exact hvoiced path activity t outs ⟨slot, hs, hslot⟩
        · exact List.mem_append_right _ hnew
    · have hlt := (List.getElem?_eq_some_iff.1 hj).1
      simp only [activate, List.length_map] at hlt
      exact absurd (List.mem_range.2 hlt) hrange

end Engine
end RecipeNet
