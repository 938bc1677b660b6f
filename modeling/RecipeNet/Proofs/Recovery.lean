import RecipeNet.Proofs.Invisibility
import RecipeNet.Proofs.Sharing
import RecipeNet.Proofs.Snapshot.Accepting

/-!
Whether a net can be brought back. A snapshot of a net is accepted by a new net of
its plan exactly when no net in it holds a token twice.
-/

namespace RecipeNet.Engine

variable {plan : Plan} {e fresh : Engine} {events : List Event} {now : Timestamp}
  {snapshot : Snapshot}

theorem Reachable.recovery {w : World} (h : Reachable w .standard plan e)
    (captured : (e.pause now).2 = .ok snapshot) (built : build .standard plan = .ok fresh) :
    (e.Throughout Exclusive ∧
      (fresh.restore snapshot).2 = .ok () ∧ (fresh.restore snapshot).1.Asleep) ∨
    (¬ e.Throughout Exclusive ∧ ∃ f, f.Doubled ∧ (fresh.restore snapshot).2 = .error f) := by
  have hf := Fitter.standard_regular
  have hsteady := h.steady hf
  have hpausable := pausable_of_pause captured
  obtain rfl : e.captured now = snapshot := by
    rw [pause_eq hpausable] at captured
    exact Except.ok.inj captured
  obtain rfl : e.outline = fresh := by
    have hbuild := hsteady.fits.here.1
    rw [hsteady.runs] at hbuild
    exact Except.ok.inj (hbuild.symm.trans built)
  refine (restore_verdict now hf hpausable hsteady.fits (h.widths hf)).imp_left ?_
  exact fun ⟨hexclusive, hok⟩ => ⟨hexclusive, hok, restore_asleep hf built (Prod.ext rfl hok)⟩

/-- Every snapshot of a net can be restored if all plans that it runs gather. -/
theorem Raised.restorable (h : Raised .standard plan events e)
    (gathers : e.Throughout fun e => e.plan.Gathers) (captured : (e.pause now).2 = .ok snapshot)
    (built : build .standard plan = .ok fresh) :
    (fresh.restore snapshot).2 = .ok () ∧ (fresh.restore snapshot).1.Asleep := by
  have hexclusive := ((h.exclusive Fitter.standard_regular).and gathers).imp fun e he => he.1 he.2
  rcases h.reachable.recovery captured built with ⟨-, hasleep⟩ | ⟨hdouble, -⟩
  · exact hasleep
  · exact absurd hexclusive hdouble

/-- A snapshot is restored in a new net, which is then paused, if no net that it was
taken of holds a token twice. Otherwise it is refused because of such a token. -/
theorem restorable_iff_exclusive {w : World} (h : Reachable w .standard plan e)
    (captured : (e.pause now).2 = .ok snapshot) (built : build .standard plan = .ok fresh) :
    (e.Throughout Exclusive →
      (fresh.restore snapshot).2 = .ok () ∧ (fresh.restore snapshot).1.Asleep) ∧
    (¬ e.Throughout Exclusive → ∃ f, f.Doubled ∧ (fresh.restore snapshot).2 = .error f) := by
  rcases h.recovery captured built with ⟨hexclusive, hasleep⟩ | ⟨hdouble, hrefused⟩
  · exact ⟨fun _ => hasleep, fun hdouble => absurd hexclusive hdouble⟩
  · exact ⟨fun hexclusive => absurd hexclusive hdouble, fun _ => hrefused⟩

/-- Whatever has been done to an errand that waits, it can be brought back. -/
theorem errand_restorable : ∃ e run snapshot, build .standard errand = .ok e ∧
    e.answer 20 serial (.start job) = some run ∧ run.engine.status = .running ∧
    (run.engine.pause default).2 = .ok snapshot ∧ (e.restore snapshot).2 = .ok () ∧
    (e.restore snapshot).1.Asleep := by
  have hfacts : ((build .standard errand).toOption.bind fun e =>
      (e.answer 20 serial (.start job)).map fun run => (run.engine.status,
        decide run.engine.Exclusive, run.engine.slots.all (·.transition.nest?.isNone))) =
      some (.running, true, true) := by
    decide +kernel
  obtain ⟨e, hbuild⟩ : ∃ e, build .standard errand = .ok e := ⟨_, rfl⟩
  rw [hbuild] at hfacts
  obtain ⟨run, hanswer, hfacts⟩ := Option.map_eq_some_iff.1 hfacts
  obtain ⟨hrunning, hfacts⟩ := Prod.mk.inj hfacts
  obtain ⟨hexclusive, hvacant⟩ := Prod.mk.inj hfacts
  have hreachable : Reachable World.careless .standard errand run.engine :=
    .called (.built hbuild) (fun _ _ => trivial) hanswer trivial
  have hall : run.engine.Throughout Exclusive := by
    refine .intro (of_decide_eq_true hexclusive) fun slot hs nest t child hbusy => ?_
    have hnone := List.all_eq_true.1 hvacant slot hs
    rw [hbusy] at hnone
    cases hnone
  have hpause := pause_eq ((hreachable.steady Fitter.standard_regular).running hrunning).pausable
    default
  have hcaptured := congrArg Prod.snd hpause
  obtain ⟨hok, hasleep⟩ := (restorable_iff_exclusive hreachable hcaptured hbuild).1 hall
  exact ⟨e, run, _, hbuild, hanswer, hrunning, hcaptured, hok, hasleep⟩

/-- The work item that is held twice cannot be brought back. -/
theorem halves_refused : ∃ events e fresh snapshot f, Raised .standard halves events e ∧
    e.status = .running ∧ build .standard halves = .ok fresh ∧
    (e.pause default).2 = .ok snapshot ∧ f.Doubled ∧ (fresh.restore snapshot).2 = .error f := by
  obtain ⟨events, e, hraised, hrunning, hwork⟩ := halves_raised
  obtain ⟨fresh, hbuild⟩ : ∃ fresh, build .standard halves = .ok fresh := ⟨_, rfl⟩
  have hawake := (hraised.reachable.steady Fitter.standard_regular).running hrunning
  have hcaptured := congrArg Prod.snd (pause_eq hawake.pausable default)
  have hdouble : ¬ e.Exclusive := by
    unfold Exclusive
    rw [hwork]
    decide
  rcases hraised.reachable.recovery hcaptured hbuild with ⟨hexclusive, -⟩ | ⟨-, f, hf, herror⟩
  · exact absurd hexclusive.here hdouble
  · exact ⟨events, e, fresh, _, f, hraised, hrunning, hbuild, hcaptured, hf, herror⟩

end RecipeNet.Engine
