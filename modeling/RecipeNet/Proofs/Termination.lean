import RecipeNet.Proofs.Invisibility
import RecipeNet.Proofs.Net.Ebbing
import RecipeNet.Proofs.Rest

/-!
Cascades end. A call to a net of a plan without cycles is answered, whatever has been asked of
the net before: in each net only so many notices are attended to, for each step only so many
nets are launched in turn, and nets are worked off within each other no deeper than plans are
nested.
-/

namespace RecipeNet

variable {weight : Nat → Nat} {levels : Nat} {r : Reaction} {nest : Nest}

theorem ebbing (levels : Nat) : Ebbing levels := by
  induction levels with
  | zero => exact fun e h => h.elim
  | succ levels ih =>
    rintro e ⟨weight, hslopes⟩ queue s
    obtain ⟨fuel, run, hrun, hlast⟩ := Engine.Slopes.drives ih hslopes queue s
    exact ⟨fuel, run, hrun, weight, hlast⟩

/-- Whatever a nested net has done, what follows comes to an end. -/
theorem Nest.Shallow.settles (hnest : nest.Shallow levels) (h : r.Downhill weight) (t : Token)
    {run : Run} (inside : run.engine.Ebbs levels) : ∃ fuel reacted,
      nest.settle (nest.launch (Engine.driveWithin fuel levels) fuel) t run r = some reacted ∧
        reacted.reaction.Follows r ∧ reacted.transition.Shallow levels (Engine.Ebbs levels) := by
  obtain ⟨r', hfollows, -, ⟨running, result, hrunning, hnow⟩ | ⟨waiting, hnext⟩⟩ :=
    Nest.settle_cases h nest t run
  · refine ⟨0, _, hnow _, hfollows, hnest.transition fun x hx => ?_⟩
    rcases hrunning with rfl | rfl
    · obtain rfl := Option.some.inj hx
      exact inside
    · cases hx
  · obtain ⟨fuel, reacted, hlaunch, hebbs⟩ :=
      hnest.launches (ebbing levels) (h.follows hfollows) waiting run.supply
    exact ⟨fuel, reacted, (hnext _).trans hlaunch, hebbs.follows.trans hfollows, hebbs.shallow⟩

namespace Engine

variable {e : Engine} {i : Nat} {slot : Slot} {reacted : Reacted}

/-- What a visit to a step sets off comes to an end. -/
theorem Slopes.goes (h : e.Slopes weight levels) (i : Nat)
    (follows : reacted.reaction.Follows (e.reaction slot))
    (shallow : reacted.transition.Shallow levels (Ebbs levels)) : ∃ fuel run,
      (e.visited i reacted).andThen (driveWithin fuel (levels + 1)) [] = some run ∧
        run.engine.Slopes weight levels := by
  have hvisited := (h.visited (i := i) follows shallow).1
  exact hvisited.andThen fun _ => hvisited.drives (ebbing levels) _ _

theorem release_settled (levels : Nat) (held : List Token) (activity : String) (r : Reaction) (token : TokenId)
    (output : Nat) (s : Supply) : (release held activity r token output s).reaction.Follows r ∧
      (release held activity r token output s).transition.Shallow levels (Ebbs levels) := by
  unfold release
  split
  · exact ⟨.refl r, trivial⟩
  split
  · exact ⟨.refl r, trivial⟩
  split
  · exact ⟨.refl r, trivial⟩
  · rename_i hproduce
    obtain ⟨place, -, rfl⟩ := Reaction.produce_ok hproduce
    exact ⟨Reaction.put_follows r place _, trivial⟩

/-- A step that refuses a report answers it. -/
theorem Slopes.refuses (h : e.Slopes weight levels) (i : Nat)
    (shallow : slot.transition.Shallow levels (Ebbs levels)) (f : Fault) (s : Supply) :
    ∃ fuel run, (e.visited i ⟨e.reaction slot, slot.transition, s, .error f⟩).andThen
      (driveWithin fuel (levels + 1)) [] = some run ∧ run.engine.Ebbs (levels + 1) := by
  have hsame : (⟨e.reaction slot, slot.transition, s, .error f⟩ : Reacted).reaction.Follows
      (e.reaction slot) := .refl _
  obtain ⟨fuel, run, hrun, hlast⟩ := h.goes i hsame shallow
  exact ⟨fuel, run, hrun, weight, hlast⟩

/-- A report is answered, at whatever step. -/
theorem Ebbs.completes (h : e.Ebbs levels) (path : List String) (token : TokenId) (output : Nat)
    (s : Supply) : ∃ fuel run, completeWithin fuel levels path e token output s = some run ∧
      run.engine.Ebbs levels := by
  induction path generalizing e levels with
  | nil =>
    cases levels with
    | zero => exact h.elim
    | succ levels =>
      unfold completeWithin complete
      by_cases hrunning : e.status ≠ .running
      · exact ⟨0, _, if_pos hrunning, h⟩
      · exact ⟨0, _, if_neg hrunning, h⟩
  | cons head rest ih =>
    cases levels with
    | zero => exact h.elim
    | succ levels =>
      obtain ⟨weight, hslopes⟩ := h
      unfold completeWithin report
      by_cases hrunning : e.status ≠ .running
      · exact ⟨0, _, if_pos hrunning, weight, hslopes⟩
      simp only [if_neg hrunning]
      cases slotIndex? e.slots head with
      | none => exact ⟨0, _, rfl, weight, hslopes⟩
      | some i =>
        dsimp only
        cases hslot : e.slots[i]? with
        | none => exact ⟨0, _, rfl, weight, hslopes⟩
        | some slot =>
          obtain ⟨hdownhill, hshallow⟩ := hslopes slot (List.mem_of_getElem? hslot)
          have hrefused := fun path => Slopes.refuses hslopes i hshallow
            (.notAwaiting (Address.text ⟨path⟩) token) s
          dsimp only
          cases htr : slot.transition with
          | pass | split | join | routed => rw [htr] at hrefused; exact hrefused (head :: rest)
          | task activity held =>
            cases rest with
            | cons => rw [htr] at hrefused; exact hrefused _
            | nil =>
              obtain ⟨hfollows, hsettled⟩ :=
                release_settled levels held activity (e.reaction slot) token output s
              obtain ⟨fuel, run, hrun, hlast⟩ := Slopes.goes hslopes i hfollows hsettled
              exact ⟨fuel, run, hrun, weight, hlast⟩
          | idle nest => rw [htr] at hrefused; cases rest <;> exact hrefused _
          | busy nest t child =>
            rw [htr] at hshallow
            obtain ⟨hnest, hchild⟩ := hshallow
            cases rest with
            | nil => rw [htr] at hrefused; exact hrefused _
            | cons next rest =>
              obtain ⟨first, inner, hinner, hebbs⟩ := ih hchild
              obtain ⟨second, reacted, hsettle, hfollows, hsettled⟩ :=
                hnest.settles hdownhill t hebbs
              obtain ⟨third, run, hrun, hlast⟩ := Slopes.goes hslopes i hfollows hsettled
              -- The net within, the step and the net around it each have fuel of their own.
              refine ⟨max first (max second third), run, ?_, weight, hlast⟩
              have hfirst := Nat.le_max_left first (max second third)
              have hsecond : second ≤ max first (max second third) := by omega
              have hthird : third ≤ max first (max second third) := by omega
              dsimp only
              rw [completeWithin_mono hfirst hinner]
              dsimp only
              rw [Nest.settle_mono (fun r t s reacted =>
                Nest.launch_mono (driveWithin_mono hsecond levels) hsecond) hsettle]
              exact andThen_mono (driveWithin_mono hthird (levels + 1)) hrun

/-- Going on after a pause comes to an end at each step. -/
theorem goOn_settles (again : ∀ child : Engine, child.Ebbs levels → ∀ s, ∃ fuel run,
      resumeWithin fuel levels child s = some run ∧ run.engine.Ebbs levels)
    (downhill : r.Downhill weight) (shallow : slot.transition.Shallow levels (Ebbs levels))
    (s : Supply) : ∃ fuel reacted,
      goOn (resumeWithin fuel levels) (driveWithin fuel levels) fuel slot r s = some reacted ∧
        reacted.reaction.Follows r ∧ reacted.transition.Shallow levels (Ebbs levels) := by
  unfold goOn
  cases htr : slot.transition with
  | task activity held =>
    refine ⟨0, _, rfl, ?_, trivial⟩
    rw [announce_all]
    exact ⟨rfl, rfl, rfl, rfl⟩
  | busy nest t child =>
    rw [htr] at shallow
    obtain ⟨hnest, hchild⟩ := shallow
    obtain ⟨first, run, hrun, hebbs⟩ := again child hchild s
    obtain ⟨second, reacted, hsettle, hfollows, hsettled⟩ := hnest.settles downhill t hebbs
    refine ⟨max first second, reacted, ?_, hfollows, hsettled⟩
    have hsecond := Nat.le_max_right first second
    dsimp only
    rw [resumeWithin_mono (Nat.le_max_left ..) levels hrun]
    exact Nest.settle_mono (fun r t s reacted =>
      Nest.launch_mono (driveWithin_mono hsecond levels) hsecond) hsettle
  | _ => exact ⟨0, _, rfl, .refl r, htr ▸ shallow⟩

theorem Slopes.resumes (again : ∀ child : Engine, child.Ebbs levels → ∀ s, ∃ fuel run,
      resumeWithin fuel levels child s = some run ∧ run.engine.Ebbs levels)
    (h : e.Slopes weight levels) (rest : List Nat) (s : Supply) : ∃ fuel v,
      resumeSlots (resumeWithin fuel levels) (driveWithin fuel levels) fuel e s rest = some v ∧
        v.engine.Slopes weight levels := by
  induction rest generalizing e s with
  | nil => exact ⟨0, _, rfl, h⟩
  | cons i rest ih =>
    unfold resumeSlots
    by_cases hrunning : e.status ≠ .running
    · exact ⟨0, _, if_pos hrunning, h⟩
    simp only [if_neg hrunning]
    cases hslot : e.slots[i]? with
    | none => exact ih h s
    | some slot =>
      obtain ⟨hdownhill, hshallow⟩ := h slot (List.mem_of_getElem? hslot)
      obtain ⟨first, reacted, hgoOn, hfollows, hsettled⟩ := goOn_settles again hdownhill hshallow s
      have hvisited := (h.visited (i := i) hfollows hsettled).1
      cases hresult : (e.visited i reacted).result with
      | error fault =>
        refine ⟨first, { e.visited i reacted with result := .error fault }, ?_, hvisited⟩
        dsimp only
        rw [hgoOn]
        dsimp only
        rw [hresult]
      | ok =>
        obtain ⟨second, v, hv, hlast⟩ := ih hvisited (e.visited i reacted).supply
        refine ⟨max first second, { v with
          notices := (e.visited i reacted).notices ++ v.notices
          events := (e.visited i reacted).events ++ v.events }, ?_, hlast⟩
        have hfirst := Nat.le_max_left first second
        have hsecond := Nat.le_max_right first second
        dsimp only
        rw [goOn_mono (resumeWithin_mono hfirst levels) (driveWithin_mono hfirst levels) hfirst hgoOn]
        dsimp only
        rw [hresult]
        dsimp only
        rw [resumeSlots_mono (resumeWithin_mono hsecond levels) (driveWithin_mono hsecond levels)
          hsecond hv]

/-- The end of a pause is answered. -/
theorem Ebbs.resumes (h : e.Ebbs levels) (s : Supply) : ∃ fuel run,
    resumeWithin fuel levels e s = some run ∧ run.engine.Ebbs levels := by
  induction levels generalizing e s with
  | zero => exact h.elim
  | succ levels ih =>
    obtain ⟨weight, hslopes⟩ := h
    by_cases hpaused : e.status ≠ .paused
    · exact ⟨1, ⟨e, s, [], _⟩, if_pos hpaused, weight, hslopes⟩
    have hactive : ({ e.activate with status := .running } : Engine).Slopes weight levels :=
      Slopes.activate hslopes .running e.holdings rfl
    obtain ⟨first, v, hv, hwoken⟩ := hactive.resumes (fun child hchild s => ih hchild s)
      (List.range e.activate.slots.length) s
    cases hresult : v.result with
    | error fault =>
      refine ⟨first + 1, ⟨v.engine, v.supply, v.events, .error fault⟩, ?_, weight, hwoken⟩
      rw [resumeWithin, awaken, if_neg hpaused]
      dsimp only
      rw [hv]
      dsimp only
      rw [hresult]
    | ok =>
      obtain ⟨second, run, hrun, hlast⟩ := (hwoken.acceptAll e.held).drives (ebbing levels)
        (v.notices ++ (v.engine.acceptAll e.held).2.1) v.supply
      refine ⟨max first second + 1, run.after (v.events ++ (v.engine.acceptAll e.held).2.2), ?_,
        weight, hlast⟩
      have hfirst := Nat.le_max_left first second
      have hsecond := Nat.le_max_right first second
      rw [resumeWithin, awaken, if_neg hpaused]
      dsimp only
      rw [resumeSlots_mono (resumeWithin_mono hfirst levels) (driveWithin_mono hfirst levels) hfirst
        hv]
      dsimp only
      rw [hresult]
      exact Option.map_eq_some_iff.2 ⟨run, driveWithin_mono hsecond (levels + 1) hrun, rfl⟩

/-- Any call is answered. -/
theorem Ebbs.answers (h : e.Ebbs levels) (s : Supply) (call : Call) : ∃ fuel run,
    answerWithin fuel levels e s call = some run := by
  cases call with
  | start t =>
    unfold answerWithin
    dsimp only
    cases henter : e.enter t with
    | error fault => exact ⟨0, ⟨e, s, [], .error fault⟩, rfl⟩
    | ok entered =>
      obtain ⟨e', notices, events⟩ := entered
      obtain ⟨fuel, run, hrun, -⟩ := ebbing levels e' (h.enter henter) notices s
      exact ⟨fuel, run.after events, Option.map_eq_some_iff.2 ⟨run, hrun, rfl⟩⟩
  | complete path token output =>
    obtain ⟨fuel, run, hrun, -⟩ := h.completes path token output s
    exact ⟨fuel, run, hrun⟩
  | resume =>
    obtain ⟨fuel, run, hrun, -⟩ := h.resumes s
    exact ⟨fuel, run, hrun⟩

variable {fitter : Fitter} {plan : Plan}

/-- If neither a plan nor a plan nested in it has a cycle, then every call to a net of the plan
is answered, at any time and with whatever identities are drawn: some number bounds how many
notices each net attends to and how many nets each step launches in turn, and no more nets run
within each other than plans are nested. -/
theorem calls_end (hf : fitter.Regular) (acyclic : plan.Acyclic)
    (h : Reachable World.careless fitter plan e) (s : Supply) (call : Call) :
    ∃ bound run, ∀ fuel, bound ≤ fuel →
      answerWithin fuel plan.levels e s call = some run ∧ e.answer fuel s call = some run := by
  have hsteady := h.steady hf
  have hebbs : e.Ebbs plan.levels := by
    have hplan := hsteady.runs
    subst hplan
    exact ebbs_of_fits hf hsteady.fits acyclic le_rfl
  obtain ⟨bound, run, hrun⟩ := hebbs.answers s call
  refine ⟨bound, run, fun fuel hle => ?_⟩
  have hmore := answerWithin_mono hle hrun
  exact ⟨hmore, answerWithin_extends hmore⟩

theorem canteen_acyclic : canteen.Acyclic := by
  refine .intro (Plan.free_of_rank (fun place => canteen.places.findIdx (·.id == place)) (by decide))
    fun step hstep inner results hkind => ?_
  have hinner : inner = kitchen := by
    simp only [canteen, List.mem_cons, List.not_mem_nil, or_false] at hstep
    rcases hstep with rfl | rfl | rfl | rfl | rfl <;> cases hkind
    rfl
  subst hinner
  refine .intro (Plan.free_of_rank (fun place => kitchen.places.findIdx (·.id == place)) (by decide))
    fun step hstep inner results hkind => ?_
  obtain rfl := List.mem_singleton.1 hstep
  cases hkind

/-- The kitchen has cooked for one half of a job and is launched for the other. -/
theorem canteen_calls_end : ∃ (e : Engine) (first : Run), build .standard canteen = .ok e ∧
    e.answer 40 serial (.start job) = some first ∧ first.engine.status = .running ∧
    ∃ bound run, ∀ fuel, bound ≤ fuel →
      answerWithin fuel canteen.levels first.engine first.supply
          (.complete ["order", "cook"] ⟨3⟩ 0) = some run ∧
        first.engine.answer fuel first.supply (.complete ["order", "cook"] ⟨3⟩ 0) = some run := by
  have hfacts : ((build .standard canteen).toOption.bind fun e =>
      (e.answer 40 serial (.start job)).map fun first => first.engine.status) = some .running := by
    decide +kernel
  obtain ⟨e, hbuild⟩ : ∃ e, build .standard canteen = .ok e := ⟨_, rfl⟩
  rw [hbuild] at hfacts
  obtain ⟨first, hfirst, hrunning⟩ := Option.map_eq_some_iff.1 hfacts
  have hreached : Reachable World.careless .standard canteen first.engine :=
    .called (.built hbuild) (fun _ _ => trivial) hfirst trivial
  exact ⟨e, first, hbuild, hfirst, hrunning, calls_end Fitter.standard_regular canteen_acyclic
    hreached first.supply (.complete ["order", "cook"] ⟨3⟩ 0)⟩

end Engine
end RecipeNet
