import RecipeNet.Proofs.Net.Keeping
import RecipeNet.Proofs.Refinement
import RecipeNet.Proofs.Safety

/-!
Tokens are lost by mishaps only. Whatever the steps of a net are fitted with, an operation that
fails leaves each token where it was, or has handed it on, or a split or a join has taken it and
put its products into its output places, unless the operation ends in one of three mishaps. This
holds of the net and of each net within it as long as it runs.
-/

namespace RecipeNet

namespace Engine

variable {w : World} {fitter : Fitter} {plan : Plan} {e : Engine} {run : Run}

/-- Whatever comes of a call. -/
theorem answer_keeps {fuel : Nat} {call : Call} {s : Supply} (founded : e.Throughout Founded)
    (hrun : e.answer fuel s call = some run) :
    (e.opened call).Concludes run.events run.engine run.result := by
  cases call with
  | start t =>
    by_cases hcreated : e.status = .created
    · have haccepted := (e.entered t).acceptAll_keeps [(e.startPlace, t)]
      simp only [answer, startWith, enter_created hcreated] at hrun
      obtain ⟨rest, hrest, rfl⟩ := Option.map_eq_some_iff.1 hrun
      obtain ⟨hkeeps, hover⟩ := drive_keeps fuel _ _ _ rest (haccepted.founded (founded_entered founded t)) hrest
      rw [opened_start hcreated]
      exact .after haccepted hkeeps hover
    · obtain rfl := refused_of_unexpected hcreated hrun
      rw [show e.opened (.start t) = e from if_neg hcreated]
      exact .refl e _
  | complete path token output => exact complete_keeps founded hrun
  | resume => exact resume_keeps fuel e s run founded hrun

theorem founded_restored (founded : e.Throughout Founded) (snapshot : Snapshot) :
    (e.restore snapshot).1.Throughout Founded := by
  have hall := Snapshot.throughout_of_forall (fun _ => True.intro) snapshot
  induction hall generalizing e with
  | @intro snapshot here inside ih =>
    obtain ⟨houtline, tokens, -, hslots⟩ := restore_filled e snapshot
    refine .intro (founded.here.of_outline houtline) fun slot hs nest t child hbusy => ?_
    obtain ⟨old, hold, hsame | ⟨state, hmem, htakes⟩⟩ := hslots slot hs
    · exact founded.child hold (hsame ▸ hbusy)
    · rw [hbusy] at htakes
      generalize old.transition = tr at htakes
      cases htakes with
      | nested isNest resolved built restored =>
        have hrestored := ih slot.step _ _ hmem (founded_of_build built)
        rwa [restored] at hrestored

theorem opened_founded (founded : e.Throughout Founded) (call : Call) :
    (e.opened call).Throughout Founded := by
  rcases opened_cases e call with hsame | ⟨t, -, -, hentered⟩
  · rw [hsame]
    exact founded
  · rw [hentered]
    exact founded_entered founded t

/-- Every net that can come about has come of one that was built. -/
theorem Reachable.founded (h : Reachable w fitter plan e) : e.Throughout Founded := by
  induction h with
  | built build => exact founded_of_build build
  | called before starts answers draws ih => exact (answer_keeps ih answers).kept.founded (opened_founded ih _)
  | paused now before ih =>
    refine pause_keeps ih now fun e next slots hslots he => he.of_outline ?_
    simp only [outline, ← Slot.Hushes.outlines hslots]
  | restored before admitted ih => exact founded_restored ih _
  | recovered before source captured ih _ => exact founded_restored ih _
  | disposed before ih =>
    refine .intro (ih.here.of_outline (outline_dispose _)) fun slot hs nest t child hbusy => ?_
    exact absurd hbusy (dispose_vacant hs nest t child)

theorem Founded.startPlace_lt (h : e.Founded) : e.startPlace < e.holdings.length := by
  obtain ⟨fitter, plan, hbuild⟩ := h
  have hlt := (built_of_build hbuild).startPlace_lt
  have hplaces : e.outline.holdings = e.holdings.map fun h => .new h.place := rfl
  rw [startPlace, hplaces, List.findIdx?_map, List.length_map] at hlt
  exact hlt

/-- A call brings the token that a new net is started with into the books. -/
theorem ledger_opened (h : e.Founded) (call : Call) :
    (e.opened call).ledger = .own (call.offer e).ids + e.ledger := by
  have hnone : Ledger.own (Marking.ids 0) + e.ledger = e.ledger :=
    (congrArg (· + e.ledger) Ledger.own_zero).trans (zero_add _)
  cases call with
  | start t =>
    by_cases hcreated : e.status = .created
    · have hoffer : Call.offer e (.start t) = {(.place e.startPlace, t)} := if_pos hcreated
      rw [opened_start hcreated, ledger_entered h.startPlace_lt, hoffer, add_comm]
      rfl
    · have hoffer : Call.offer e (.start t) = 0 := if_neg hcreated
      rw [show e.opened (.start t) = e from if_neg hcreated, hoffer, hnone]
  | complete | resume => exact hnone.symm

/-- Whatever comes of a call, no token is lost but by a mishap with whose fault the call ends: the
net and the nets within it have the tokens that they had and the one that they were offered, but
for those that splits and joins which are reported have exchanged, those that nested nets have
begun with, and those that were left in nested nets at their end. -/
theorem loses_by_mishap_only {fuel : Nat} {call : Call} {s : Supply} (h : Reachable w fitter plan e)
    (answers : e.answer fuel s call = some run) :
    ∃ changes loss, Dealings (e.opened call) run.events changes loss run.engine ∧
      (∀ change ∈ changes, ∀ step ∈ change.firing?, .fired step ∈ run.events) ∧
      run.engine.ledger + Change.totalTaken changes + Loss.ledger loss =
        .own (call.offer e).ids + e.ledger + Change.totalMade changes ∧
      ∀ lost ∈ loss, run.result = .error lost.fault ∧ lost.tokens ≠ 0 := by
  have hfounded := h.founded
  obtain ⟨changes, loss, hdealings, hloss⟩ := (answer_keeps hfounded answers).kept
  refine ⟨changes, loss, hdealings, hdealings.fires, ?_, fun lost hlost => ⟨hloss lost hlost, ?_⟩⟩
  · rw [← ledger_opened hfounded.here call]
    exact hdealings.balance
  · rw [Option.mem_def.1 hlost] at hdealings
    exact hdealings.tokens_ne_zero

def refusing (name : String) : Fitter := fun step =>
  if step.id = name then .ok (.routed fun _ _ => .error "refused") else Fitter.standard step

/-- A fork whose second step refuses the parts keeps them where the first one has put them. -/
theorem fork_keeps_parts : ∃ e run, build (refusing "join") fork = .ok e ∧
    e.answer 10 counting (.start whole) = some run ∧
    run.result = .error (.transitionFailed "join" (.refused "refused")) ∧
    run.engine.marking.ids = {⟨1⟩, ⟨2⟩} ∧
    ∃ changes loss, Dealings (e.entered whole) run.events changes loss run.engine ∧
      (∀ change ∈ changes, ∀ step ∈ change.firing?, .fired step ∈ run.events) ∧
      run.engine.ledger + Change.totalTaken changes + Loss.ledger loss =
        .own {whole.id} + e.ledger + Change.totalMade changes ∧
      ∀ lost ∈ loss, run.result = .error lost.fault ∧ lost.tokens ≠ 0 := by
  obtain ⟨e, hbuild⟩ : ∃ e, build (refusing "join") fork = .ok e := ⟨_, rfl⟩
  have hb := built_of_build hbuild
  obtain ⟨run, hanswer, hresult, hids⟩ : ∃ run, e.answer 10 counting (.start whole) = some run ∧
      run.result = .error (.transitionFailed "join" (.refused "refused")) ∧
      run.engine.marking.ids = {⟨1⟩, ⟨2⟩} := by
    cases hbuild
    exact ⟨_, rfl, rfl, rfl⟩
  have hoffer : Call.offer e (.start whole) = {(.place e.startPlace, whole)} := if_pos hb.status
  obtain ⟨changes, loss, hdealings, hfired, hbalance, hloss⟩ :=
    loses_by_mishap_only (w := World.careful) (.built hbuild) hanswer
  rw [opened_start hb.status] at hdealings
  rw [hoffer] at hbalance
  exact ⟨e, run, hbuild, hanswer, hresult, hids, changes, loss, hdealings, hfired, hbalance, hloss⟩

def lacking (name : String) : Fitter := fun step =>
  if step.id = name then .error (.transitionFailed name (.refused "missing")) else Fitter.standard step

/-- A dinner whose kitchen has no cook loses its guest: the start of the net fails, no plan has a
split or a join, and no token is left. -/
theorem dinner_loses_guest : ∃ e run f, build (lacking "cook") dinner = .ok e ∧
    e.answer 10 counting (.start whole) = some run ∧ run.result = .error f ∧
    (∀ step ∈ dinner.steps ++ kitchen.steps, step.kind ≠ .split ∧ step.kind ≠ .join) ∧
    whole.id ∈ (Call.offer e (.start whole)).ids ∧ run.engine.ledger = 0 := by
  obtain ⟨e, hbuild⟩ : ∃ e, build (lacking "cook") dinner = .ok e := ⟨_, rfl⟩
  have hb := built_of_build hbuild
  obtain ⟨run, hanswer, hresult, hids, hsteps⟩ : ∃ run, e.answer 10 counting (.start whole) = some run ∧
      run.result = .error (.transitionFailed "cook" (.refused "missing")) ∧ run.engine.marking.ids = 0 ∧
      run.engine.slots.map (·.transition.ledger) = [0, 0] := by
    cases hbuild
    exact ⟨_, rfl, rfl, rfl, rfl⟩
  have hoffer : Call.offer e (.start whole) = {(.place e.startPlace, whole)} := if_pos hb.status
  have hledger : run.engine.ledger = 0 := by
    rw [ledger_eq, hids, Ledger.own_zero, zero_add]
    refine List.sum_eq_zero fun l hl => ?_
    obtain ⟨slot, hs, rfl⟩ := List.mem_map.1 hl
    have hmem : slot.transition.ledger ∈ run.engine.slots.map (·.transition.ledger) :=
      List.mem_map_of_mem hs
    rw [hsteps, List.mem_pair, or_self] at hmem
    rw [hmem, Ledger.within_zero]
  exact ⟨e, run, _, hbuild, hanswer, hresult, by simp [dinner, kitchen],
    by rw [hoffer]; exact Multiset.mem_singleton_self _, hledger⟩

end Engine

end RecipeNet
