import RecipeNet.Proofs.Asks
import RecipeNet.Proofs.Endings

/-!
Runs that draw other identities. A session that is another one but for its identities comes to the
same ending but for these, and neither the time of day nor the time that has passed plays a part.
-/

namespace RecipeNet
namespace CommandLine

variable {ρ : Equiv.Perm TokenId}

def Activity.rename (ρ : Equiv.Perm TokenId) (a : Activity) : Activity :=
  { a with token := ρ a.token }

theorem Activity.ofEvents_rename (events : List Event) :
    (events.map (Event.rename ρ)).filterMap ofEvent? =
      (events.filterMap ofEvent?).map (rename ρ) := by
  rw [List.filterMap_map, List.map_filterMap]
  congr 1
  funext event
  cases event with
  | started step name t => simp [Event.rename, ofEvent?, rename]
  | fired | completed => rfl

namespace Session

/-- Two sessions that do not pause by themselves are the same but for the identities that they
know, and finish activities alike. -/
structure Echoes (ρ : Equiv.Perm TokenId) (x y : Session) : Prop where
  unlimited : x.options.pauseAfter = none
  unlimited' : y.options.pauseAfter = none
  results : y.options.results = x.options.results
  engine : y.engine = x.engine.rename ρ
  activities : y.activities = x.activities.map (Activity.rename ρ)
  fresh : y.fresh = x.fresh.map (Event.rename ρ)

variable {x y : Session} {now : Timestamp} {fuel : Nat} {ending : Ending}

theorem Echoes.settle (h : Echoes ρ x y) (time time' : Option Nat) :
    Echoes ρ (x.settle time) (y.settle time') := by
  refine ⟨h.unlimited, h.unlimited', h.results, h.engine, ?_, rfl⟩
  show y.activities ++ y.fresh.filterMap Activity.ofEvent? = _
  rw [h.activities, h.fresh, Activity.ofEvents_rename, ← List.map_append]
  rfl

theorem Echoes.verdict (h : Echoes ρ x y) :
    (y.engine.status, y.engine.completion.map (·.1)) =
      (x.engine.status, x.engine.completion.map (·.1)) := by
  rw [h.engine, Engine.rename_eq]
  cases x.engine.completion <;> rfl

theorem Echoes.idle (h : Echoes ρ x y) (idle : x.Idle) : y.Idle := by
  rw [Idle, h.engine, Engine.rename_status, h.activities]
  exact idle.imp_right fun hnone => by rw [hnone, List.map_nil]

/-- What finishes an activity of one session finishes it in the other one. -/
theorem Finishes.echoed {rest : List Activity} {run : Run} (h : x.Finishes fuel rest run) :
    ∃ n, run.supply = x.supply.skip n ∧ ∀ y : Session, Echoes ρ x y →
      x.supply.Replaces ρ n y.supply →
      y.Finishes fuel (rest.map (Activity.rename ρ)) (run.rename ρ (y.supply.skip n)) ∧
        Echoes ρ (x.onward rest run)
          (y.onward (rest.map (Activity.rename ρ)) (run.rename ρ (y.supply.skip n))) := by
  obtain ⟨running, activity, hturn, hcall⟩ := h
  obtain ⟨n, hn, hother⟩ := Engine.mirrors_complete (ρ := ρ) _ _ _ _ _ _ run hcall
  refine ⟨n, hn, fun y hy replaces => ⟨⟨?_, activity.rename ρ, ?_, ?_⟩, ?_⟩⟩
  · rw [hy.engine, Engine.rename_status, running]
  · rw [hy.activities, hturn, List.map_cons]
  · have houtput : y.options.resultFor activity.name = x.options.resultFor activity.name := by
      rw [Options.resultFor, Options.resultFor, hy.results]
    show y.engine.complete fuel activity.step.path (ρ activity.token) _ y.supply = _
    rw [hy.engine]
    change Engine.complete fuel _ _ _ (y.options.resultFor activity.name) _ = _
    rw [houtput]
    exact hother y.supply replaces
  · exact ⟨hy.unlimited, hy.unlimited', hy.results, rfl, rfl, rfl⟩

/-- The same happens in both sessions. -/
theorem drive_echoed (h : x.drive now fuel = some ending) (unlimited : x.options.pauseAfter = none) :
    ∃ n, ending.supply? = some (x.supply.skip n) ∧ ∀ (y : Session) (now' : Timestamp),
      Echoes ρ x y → x.supply.Replaces ρ n y.supply →
      ∃ ending', y.drive now' fuel = some ending' ∧ ending'.verdict? = ending.verdict? ∧
        ending'.supply? = some (y.supply.skip n) := by
  induction fuel generalizing x with
  | zero => cases h
  | succ fuel ih =>
    rw [drive_unlimited unlimited] at h
    rcases proceed_cases h with ⟨hidle, rfl⟩ | ⟨rest, run, hfinishes, hend⟩
    · refine ⟨0, rfl, fun y now' hy _ => ⟨.stopped (y.settle none), ?_, ?_, rfl⟩⟩
      · rw [drive_unlimited hy.unlimited', proceed_idle ((hy.settle none none).idle hidle)]
      · exact congrArg some (hy.settle none none).verdict
    obtain ⟨n, hn, hother⟩ := hfinishes.echoed (ρ := ρ)
    rcases hend with ⟨f, hresult, rfl⟩ | ⟨hresult, hagain⟩
    · refine ⟨n, congrArg some hn, fun y now' hy replaces => ?_⟩
      obtain ⟨hfinishes', hechoes⟩ := hother _ (hy.settle none none) replaces
      refine ⟨.failed ((y.settle none).onward (rest.map (Activity.rename ρ))
        (run.rename ρ (y.supply.skip n))) (f.rename ρ), ?_, congrArg some hechoes.verdict, rfl⟩
      rw [drive_unlimited hy.unlimited', proceed_finishes hfinishes', Run.rename, hresult]
      rfl
    · obtain ⟨m, hm, hlater⟩ := ih hagain unlimited
      have hdrawn : run.supply.skip m = x.supply.skip (n + m) := by
        rw [hn, ← Supply.skip_skip]
        rfl
      refine ⟨n + m, hm.trans (congrArg some hdrawn), fun y now' hy replaces => ?_⟩
      obtain ⟨hfinishes', hechoes⟩ := hother _ (hy.settle none none) replaces.left
      have hrest : run.supply.Replaces ρ m (y.supply.skip n) := hn ▸ replaces.right
      obtain ⟨ending', hdrive, hverdict, hsupply⟩ := hlater _ now' hechoes hrest
      refine ⟨ending', ?_, hverdict, ?_⟩
      · rw [drive_unlimited hy.unlimited', proceed_finishes hfinishes', Run.rename, hresult]
        exact hdrive
      · rw [hsupply]
        exact congrArg some (Supply.skip_skip _ _ _)

end Session
end CommandLine
end RecipeNet
