import RecipeNet.Proofs.Lifecycle

/-!
What a fault does to a net. A fault from within halts it, with the fault as the reason;
a mistake of the caller is found before anything has changed, at whatever depth.
-/

namespace RecipeNet

theorem Status.halted_of_paused? {status : Status}
    (h : status.paused?.getD status = .halted) : status = .halted := by
  revert h
  cases status <;> decide

namespace Engine

/-- A request has halted a net, or it has failed without any effect, or it has succeeded
and has not halted the net. -/
structure AllOrHalt {α : Type} (before after : Engine) (events : List Event)
    (result : Except Fault α) : Prop where
  halts : ∀ f, result = .error f → f.halts = true →
    after.status = .halted ∧ after.haltReason = some f.message
  spares : ∀ f, result = .error f → f.halts = false → after = before ∧ events = []
  succeeds : ∀ x, result = .ok x → after.status = .halted → before.status = .halted

variable {fitter : Fitter} {plan : Plan} {e : Engine}

theorem AllOrHalt.refused {α : Type} {f : Fault} (spares : f.halts = false) :
    AllOrHalt e e [] (.error f : Except Fault α) := by
  refine ⟨fun f' hfault hhalts => ?_, fun _ _ _ => ⟨rfl, rfl⟩, nofun⟩
  obtain rfl := Except.error.inj hfault
  cases spares.symm.trans hhalts

theorem Call.Refusal.spares {call : Call} {f : Fault} (h : call.Refusal e f) : f.halts = false := by
  cases h with
  | start | resume => rfl
  | complete path token output f caller => exact caller.spares

/-- Pausing only fails in a status in which a net cannot be paused. -/
theorem pause_allOrHalt (tended : e.Tended) (now : Timestamp) :
    AllOrHalt e (e.pause now).1 [] (e.pause now).2 := by
  by_cases hlive : e.status.paused?.isSome
  · rw [pause_eq (tended.pausable hlive) now]
    exact ⟨nofun, nofun, fun _ _ hhalted => Status.halted_of_paused? hhalted⟩
  · rw [pause_refused (Option.not_isSome_iff_eq_none.1 hlive)]
    exact .refused rfl

end Engine

open Engine in
theorem Run.Proper.allOrHalt {sc : Scene} {run : Run} (h : run.Proper sc) (before : Engine) :
    AllOrHalt before run.engine run.events run.result := by
  refine ⟨fun f hfault _ => ?_, fun f hfault hspares => ?_, fun u hok hhalted => ?_⟩
  · obtain ⟨-, hstatus, hcause⟩ := h.error f hfault
    exact ⟨hstatus, congrArg (Option.map Fault.message) hcause⟩
  · cases hspares.symm.trans (h.error f hfault).1
  · rcases h.ok hok with hcompleted | hawake
    · cases hcompleted.symm.trans hhalted
    · cases hawake.here.running.symm.trans hhalted

namespace Engine

variable {fitter : Fitter} {plan : Plan} {e : Engine}

/-- Whatever is asked of a net either succeeds without halting it, or halts it with the
fault as the reason, or has no effect at all. -/
theorem errors_all_or_halt (hf : fitter.Regular) (h : Reachable World.careless fitter plan e) :
    (∀ fuel s call run, e.answer fuel s call = some run →
      AllOrHalt e run.engine run.events run.result) ∧
    ∀ now, AllOrHalt e (e.pause now).1 [] (e.pause now).2 := by
  refine ⟨fun fuel s call run hrun => ?_, pause_allOrHalt (h.kept hf).tended⟩
  rcases (h.steady hf).answer hf hrun with ⟨f, hrefusal, rfl⟩ | ⟨-, hproper⟩
  · exact .refused hrefusal.spares
  · exact hproper.allOrHalt e

/-- The brawl halts for the second half in the seat, while a kitchen that is asked for
another dish than the one it cooks goes on as before. -/
theorem brawl_halts_dinner_spared : ∃ (b d : Engine) (fight first second : Run),
    build .standard brawl = .ok b ∧ b.answer 40 serial (.start job) = some fight ∧
    fight.engine.status = .halted ∧ fight.engine.haltReason =
      some (Fault.unexpectedToken "join" ⟨2⟩ (.taken 0 ⟨1⟩ ⟨0⟩)).message ∧
    build .standard dinner = .ok d ∧ d.answer 40 serial (.start job) = some first ∧
    first.engine.answer 40 first.supply (.complete ["order", "cook"] ⟨9⟩ 0) = some second ∧
    second.result = .error (.notAwaiting "cook" ⟨9⟩) ∧ second.engine = first.engine ∧
    second.events = [] := by
  have hfacts : (((build .standard brawl).toOption.bind fun b =>
      (b.answer 40 serial (.start job)).map fun fight => fight.result),
      (build .standard dinner).toOption.bind fun d =>
        (d.answer 40 serial (.start job)).bind fun first =>
          (first.engine.answer 40 first.supply (.complete ["order", "cook"] ⟨9⟩ 0)).map
            fun second => second.result) =
      (some (.error (.unexpectedToken "join" ⟨2⟩ (.taken 0 ⟨1⟩ ⟨0⟩))),
        some (.error (.notAwaiting "cook" ⟨9⟩))) := by
    decide +kernel
  obtain ⟨b, hbrawl⟩ : ∃ e, build .standard brawl = .ok e := ⟨_, rfl⟩
  obtain ⟨d, hdinner⟩ : ∃ e, build .standard dinner = .ok e := ⟨_, rfl⟩
  rw [hbrawl, hdinner] at hfacts
  obtain ⟨hfight, hmistake⟩ := Prod.mk.inj hfacts
  obtain ⟨fight, hanswer, hfight⟩ := Option.map_eq_some_iff.1 hfight
  change (d.answer 40 serial (.start job)).bind _ = _ at hmistake
  obtain ⟨first, hfirst, hmistake⟩ := Option.bind_eq_some_iff.1 hmistake
  obtain ⟨second, hsecond, hmistake⟩ := Option.map_eq_some_iff.1 hmistake
  have hf := Fitter.standard_regular
  obtain ⟨hcalls, -⟩ := errors_all_or_halt hf (.built hbrawl)
  obtain ⟨hhalted, hreason⟩ := (hcalls 40 serial _ fight hanswer).halts _ hfight rfl
  obtain ⟨hcalls', -⟩ := errors_all_or_halt hf
    (.called (.built hdinner) (fun _ _ => trivial) hfirst trivial)
  obtain ⟨hsame, hsilent⟩ := (hcalls' 40 first.supply _ second hsecond).spares _ hmistake rfl
  exact ⟨b, d, fight, first, second, hbrawl, hanswer, hhalted, hreason, hdinner, hfirst, hsecond,
    hmistake, hsame, hsilent⟩

end Engine
end RecipeNet
