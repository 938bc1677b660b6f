import RecipeNet.Proofs.Net.Tending
import RecipeNet.Proofs.Invisibility
import RecipeNet.Proofs.Safety

/-!
The lives of a net, of its steps and of the nets within, which each keep a status of
their own. Whatever is asked of a net, also when it halts halfway or a snapshot does not
fit, they agree at every depth; so pausing and resuming meet no net that refuses.
-/

namespace RecipeNet

def Slot.inside? (slot : Slot) : Option Status :=
  match slot.transition with
  | .busy _ _ child => some child.status
  | _ => none

theorem Slot.mem_inside? {slot : Slot} {status : Status} : status ∈ slot.inside? ↔
    ∃ nest t child, slot.transition = .busy nest t child ∧ child.status = status := by
  unfold inside?
  cases slot.transition <;> simp

theorem Slot.inside?_eq_none {slot : Slot}
    (vacant : ∀ nest t child, slot.transition ≠ .busy nest t child) : slot.inside? = none := by
  refine Option.eq_none_iff_forall_not_mem.2 fun status hstatus => ?_
  obtain ⟨nest, t, child, hbusy, -⟩ := mem_inside?.1 hstatus
  exact vacant nest t child hbusy

namespace Engine

/-- The status of a net goes with the phases of its steps and the statuses of the nets
that they run. -/
structure InStep (e : Engine) : Prop where
  created : e.status = .created → ∀ slot ∈ e.slots,
    slot.phase = .initialized ∧ slot.inside? = none
  running : e.status = .running → ∀ slot ∈ e.slots,
    slot.phase = .active ∧ ∀ status ∈ slot.inside?, status = .running
  paused : e.status = .paused → ∀ slot ∈ e.slots,
    slot.phase = .paused ∧ ∀ status ∈ slot.inside?, status = .paused
  disposed : e.status = .disposed → ∀ slot ∈ e.slots,
    slot.phase = .disposed ∧ slot.inside? = none
  within : ∀ slot ∈ e.slots, ∀ status ∈ slot.inside?,
    status ≠ .created ∧ status ≠ .completed ∧ status ≠ .disposed

variable {fitter : Fitter} {plan : Plan} {e : Engine}

theorem Alive.status (h : e.Alive) :
    e.status = .running ∨ e.status = .paused ∨ e.status = .halted := by
  cases h with
  | awake h => exact .inl h.here.running
  | asleep h => exact .inr (.inl h.here.paused)
  | halted halted => exact .inr (.inr halted)

theorem Alive.pausable (h : e.Alive) : e.Pausable := by
  induction h with
  | awake h => exact h.pausable
  | asleep h => exact h.pausable
  | halted halted _ ih => exact .intro (by rw [halted]; rfl) ih

theorem Alive.pause (h : e.Alive) (now : Timestamp) : (e.pause now).1.Alive := by
  induction h with
  | awake h => exact .asleep (h.pause now)
  | asleep h => exact .asleep (h.pause now)
  | @halted e halted inside ih =>
    have hpausable : e.Pausable := (Alive.halted halted inside).pausable
    rw [pause_eq hpausable now]
    refine .halted ?_ fun slot hs nest t child ht => ?_
    · simp only [hushed, halted]
      rfl
    · obtain ⟨old, hold, before, hbusy, -, rfl⟩ := hushed_child hs ht
      exact ih old hold nest t before hbusy

/-- Each pause leaves the nets within alive, whether it fails or not. -/
theorem Tended.pause (h : e.Tended) (now : Timestamp) : (e.pause now).1.Tended := by
  refine keeps_pause h now fun next slots hslots slot hs nest t child ht => ?_
  obtain ⟨old, hold, hhush⟩ := exists_left_of_forall₂ hslots hs
  obtain ⟨before, hbefore, rfl | rfl⟩ := hhush.busy ht
  · exact h old hold nest t child hbefore
  · exact (h old hold nest t before hbefore).pause now

theorem Tended.pausable (h : e.Tended) (live : e.status.paused?.isSome) : e.Pausable :=
  .intro live fun slot hs nest t child ht => (h slot hs nest t child ht).pausable

/-- The nets that a snapshot has put into a new net are paused, also if it does not fit. -/
theorem tended_restore (hf : fitter.Regular) (hbuild : build fitter plan = .ok e)
    (snapshot : Snapshot) : (e.restore snapshot).1.Tended := by
  intro slot hs nest t child ht
  obtain ⟨fresh, inner, -, hfresh, hinner⟩ :=
    ((built_of_build hbuild).fed snapshot).child hf hbuild hs ht
  exact .asleep (restore_asleep hf hfresh hinner)

theorem Steady.tended_answer (hf : fitter.Regular) (h : e.Steady fitter plan) (tended : e.Tended)
    {fuel : Nat} {call : Call} {s : Supply} {run : Run} (hrun : e.answer fuel s call = some run) :
    run.engine.Tended := by
  by_cases hunexpected : e.status ≠ call.expects
  · rw [refused_of_unexpected hunexpected hrun]
    exact tended
  have hstatus := not_not.1 hunexpected
  have hsound := sound_lore (h.opened h.fits (fun hbuild => Fits.entered hbuild) call) s
  cases call with
  | start t =>
    have hb := built_of_build (h.created hstatus)
    rw [opened_start hstatus] at hsound
    exact startWith_tended hf (h.runs.symm ▸ hb) hsound (hb.mentions_start t) hrun
  | complete path token output => exact complete_tended hf path hsound (h.running hstatus) hrun
  | resume => exact resume_tending hf fuel _ run hsound (h.paused hstatus) hrun

structure Kept (e : Engine) : Prop where
  tended : e.Tended
  disposed : e.status = .disposed → ∀ slot ∈ e.slots, slot.phase = .disposed ∧ slot.inside? = none

theorem Kept.of_status (tended : e.Tended) {status : Status} (h : e.status = status)
    (lasts : status ≠ .disposed) : e.Kept :=
  ⟨tended, fun hdisposed => absurd (h.symm.trans hdisposed) lasts⟩

theorem Kept.called (hf : fitter.Regular) (h : e.Steady fitter plan) (kept : e.Kept)
    {fuel : Nat} {call : Call} {s : Supply} {run : Run}
    (hrun : e.answer fuel s call = some run) : run.engine.Kept := by
  have htended := h.tended_answer hf kept.tended hrun
  rcases h.answer hf hrun with ⟨f, -, rfl⟩ | ⟨-, hproper⟩
  · exact kept
  cases hresult : run.result with
  | error f => exact .of_status htended (hproper.error f hresult).2.1 (by decide)
  | ok u =>
    rcases hproper.ok hresult with hcompleted | hawake
    · exact .of_status htended hcompleted (by decide)
    · exact .of_status htended hawake.here.running (by decide)

theorem Kept.pause (h : e.Kept) (now : Timestamp) : (e.pause now).1.Kept := by
  have htended := h.tended.pause now
  rcases status_pause e now with hsame | ⟨-, hpaused⟩ | ⟨-, hhalted⟩
  · rw [hsame]
    exact h
  · exact .of_status htended hpaused (by decide)
  · exact .of_status htended hhalted (by decide)

theorem Kept.restore (hf : fitter.Regular) (h : e.Steady fitter plan) (kept : e.Kept)
    (snapshot : Snapshot) : (e.restore snapshot).1.Kept := by
  rcases restore_cases e snapshot with ⟨e', hok, hloads⟩ | ⟨f, herror⟩ |
    ⟨slots, f, herror, hcreated, -⟩
  · have hbuild := h.created hloads.created
    have hpaused : (e.restore snapshot).1.status = .paused := by
      rw [hok]
      exact (restore_asleep hf hbuild hok).here.paused
    exact .of_status (tended_restore hf hbuild snapshot) hpaused (by decide)
  · rw [herror]
    exact kept
  · have hhalted : (e.restore snapshot).1.status = .halted := by
      rw [herror]
      rfl
    exact .of_status (tended_restore hf (h.created hcreated) snapshot) hhalted (by decide)

theorem Reachable.kept {w : World} (hf : fitter.Regular) (h : Reachable w fitter plan e) :
    e.Kept := by
  induction h with
  | built build =>
    have hb := built_of_build build
    exact .of_status hb.tended hb.status (by decide)
  | called before _ answers _ ih => exact ih.called hf (before.steady hf) answers
  | paused now _ ih => exact ih.pause now
  | restored before _ ih => exact ih.restore hf (before.steady hf) _
  | recovered before _ _ ih _ => exact ih.restore hf (before.steady hf) _
  | disposed =>
    refine ⟨fun slot hs nest t child ht => absurd ht (dispose_vacant hs nest t child),
      fun _ slot hs => ⟨?_, Slot.inside?_eq_none (dispose_vacant hs)⟩⟩
    obtain ⟨old, -, rfl⟩ := List.mem_map.1 hs
    rfl

theorem InStep.of_tended (tended : e.Tended)
    (created : e.status = .created → ∀ slot ∈ e.slots, slot.phase = .initialized ∧ slot.inside? = none)
    (running : e.status = .running → e.Awake) (paused : e.status = .paused → e.Asleep)
    (disposed : e.status = .disposed → ∀ slot ∈ e.slots, slot.phase = .disposed ∧ slot.inside? = none) :
    e.InStep := by
  refine ⟨created, fun hrunning slot hs => ?_, fun hpaused slot hs => ?_, disposed,
    fun slot hs status hinside => ?_⟩
  · have hawake := running hrunning
    refine ⟨hawake.here.active slot hs, fun status hinside => ?_⟩
    obtain ⟨nest, t, child, ht, rfl⟩ := Slot.mem_inside?.1 hinside
    exact (hawake.child hs ht).here.running
  · have hasleep := paused hpaused
    refine ⟨hasleep.here.phases slot hs, fun status hinside => ?_⟩
    obtain ⟨nest, t, child, ht, rfl⟩ := Slot.mem_inside?.1 hinside
    exact (hasleep.child hs ht).here.paused
  · obtain ⟨nest, t, child, ht, rfl⟩ := Slot.mem_inside?.1 hinside
    rcases (tended slot hs nest t child ht).status with h | h | h <;> rw [h] <;> decide

theorem Awake.inStep (h : e.Awake) : e.Throughout InStep := by
  induction h with
  | @intro e here inside ih =>
    have hawake : e.Awake := .intro here inside
    refine .intro (.of_tended hawake.tended ?_ (fun _ => hawake) ?_ ?_) ih
    all_goals exact fun hother => by cases here.running.symm.trans hother

theorem Asleep.inStep (h : e.Asleep) : e.Throughout InStep := by
  induction h with
  | @intro e here inside ih =>
    have hasleep : e.Asleep := .intro here inside
    refine .intro (.of_tended hasleep.tended ?_ ?_ (fun _ => hasleep) ?_) ih
    all_goals exact fun hother => by cases here.paused.symm.trans hother

theorem Alive.inStep (h : e.Alive) : e.Throughout InStep := by
  induction h with
  | awake h => exact h.inStep
  | asleep h => exact h.inStep
  | @halted e halted inside ih =>
    refine .intro (.of_tended inside ?_ ?_ ?_ ?_) ih
    all_goals exact fun hother => by cases halted.symm.trans hother

/-- All statuses and phases agree, at every depth. A net that runs, is paused or has
halted can be paused, and nothing within a paused net refuses to go on. -/
theorem lives_agree (hf : fitter.Regular) (h : Reachable World.careless fitter plan e) :
    e.Throughout InStep ∧
    (e.status = .running ∨ e.status = .paused ∨ e.status = .halted →
      ∀ now, ∃ snapshot, (e.pause now).2 = .ok snapshot) ∧
    (e.status = .paused → ∀ fuel s run, e.answer fuel s .resume = some run →
      ∀ request status, run.result ≠ .error (.wrongState request status)) := by
  have hsteady := h.steady hf
  obtain ⟨htended, hdisposed⟩ := h.kept hf
  refine ⟨?_, fun hlive now => ?_, fun hpaused fuel s run hrun request status hresult => ?_⟩
  · refine .intro (.of_tended htended (fun hcreated slot hs => ?_) hsteady.running hsteady.paused
      hdisposed) fun slot hs nest t child ht => (htended slot hs nest t child ht).inStep
    have hb := built_of_build (hsteady.created hcreated)
    exact ⟨(hb.fresh hs).1, Slot.inside?_eq_none (hb.vacant hs)⟩
  · have hopen : e.status.paused?.isSome := by
      rcases hlive with h | h | h <;> rw [h] <;> rfl
    exact ⟨_, congrArg Prod.snd (pause_eq (htended.pausable hopen) now)⟩
  · rcases hsteady.answer hf hrun with ⟨f, hrefusal, -⟩ | ⟨-, hproper⟩
    · cases hrefusal with
      | resume isPaused => exact isPaused hpaused
    · obtain ⟨hhalts, -⟩ := hproper.error _ hresult
      cases hhalts

/-- A plan that sends a dish to be cooked, and two halves of a work item to one seat. -/
def brawl : Plan where
  id := "brawl"
  version := 1
  places := [{ id := "in", role := .start }, { id := "left" }, { id := "right" }, { id := "side" },
    { id := "back" }, { id := "table" }, { id := "out", role := .terminal }]
  steps := [⟨"split", none, ["in"], ["left", "right", "side"], .split⟩,
    ⟨"join", none, ["left", "back"], ["out"], .join⟩,
    ⟨"move", none, ["right"], ["left"], .pass 0⟩,
    ⟨"order", none, ["side"], ["table"], .nested kitchen (.ofList [("dish", 0)])⟩]

/-- The kitchen still runs when the net around it has halted, and can be paused. -/
theorem brawl_lives_agree : ∃ (e : Engine) (run : Run), build .standard brawl = .ok e ∧
    e.answer 40 serial (.start job) = some run ∧ run.engine.status = .halted ∧
    run.engine.slots.map Slot.inside? = [none, none, none, some .running] ∧
    run.engine.Throughout InStep ∧ ∃ snapshot, (run.engine.pause default).2 = .ok snapshot := by
  have hfacts : ((build .standard brawl).toOption.bind fun e =>
      (e.answer 40 serial (.start job)).map fun run =>
        (run.engine.status, run.engine.slots.map Slot.inside?)) =
      some (.halted, [none, none, none, some .running]) := by
    decide +kernel
  obtain ⟨e, hbuild⟩ : ∃ e, build .standard brawl = .ok e := ⟨_, rfl⟩
  rw [hbuild] at hfacts
  obtain ⟨run, hanswer, hfacts⟩ := Option.map_eq_some_iff.1 hfacts
  obtain ⟨hhalted, hinside⟩ := Prod.mk.inj hfacts
  obtain ⟨hall, hpause, -⟩ := lives_agree Fitter.standard_regular
    (.called (.built hbuild) (fun _ _ => trivial) hanswer trivial)
  exact ⟨e, run, hbuild, hanswer, hhalted, hinside, hall, hpause (.inr (.inr hhalted)) default⟩

end Engine
end RecipeNet
