import RecipeNet.Proofs.Reachable
import RecipeNet.Proofs.Snapshot.Waking

/-!
When pausing goes unnoticed. A running net that is paused and goes on at once is
the same net again exactly if every token behind a join sits in that join, at
every depth. A join that a sibling has left through another step forgets nothing
while the net runs, so a later sibling may find its seat taken after a pause.
-/

namespace RecipeNet.Engine

variable {e e' : Engine} {now : Timestamp} {s : Supply}

/-- Every token behind an input of a join sits in the join. -/
def Seated (e : Engine) : Prop :=
  ∀ slot ∈ e.slots, ∀ p ∈ slot.inputs, ∀ h ∈ e.holdings[p]?, ∀ t ∈ h.tokens,
    slot.transition.seats t = true

instance : Decidable e.Seated :=
  inferInstanceAs (Decidable (∀ slot ∈ e.slots, ∀ p ∈ slot.inputs, ∀ h ∈ e.holdings[p]?,
    ∀ t ∈ h.tokens, slot.transition.seats t = true))

def offered (e : Engine) : List Notice := e.held.flatMap fun x => e.notices x.1 x.2

theorem mem_held {p : Nat} {t : Token} :
    (p, t) ∈ e.held ↔ ∃ h, e.holdings[p]? = some h ∧ t ∈ h.tokens :=
  mem_spread

theorem mem_consumers {place i k : Nat} :
    (i, k) ∈ e.consumers place ↔
      ∃ slot, e.slots[i]? = some slot ∧ slot.inputs[k]? = some place := by
  refine ⟨fun h => ?_, fun ⟨slot, hi, hk⟩ => consumers_mem hi hk⟩
  obtain ⟨⟨slot, j⟩, hslot, hmem⟩ := List.mem_flatMap.1 h
  obtain ⟨⟨p, input⟩, hinput, heq⟩ := List.mem_map.1 hmem
  obtain ⟨hinput, hplace⟩ := List.mem_filter.1 hinput
  obtain ⟨rfl, rfl⟩ := Prod.mk.inj heq
  have hp := List.mem_zipIdx_iff_getElem?.1 hinput
  refine ⟨slot, List.mem_zipIdx_iff_getElem?.1 hslot, ?_⟩
  rw [hp]
  simpa using hplace

theorem mem_offered {n : Notice} : n ∈ e.offered ↔ ∃ slot p h, e.slots[n.slot]? = some slot ∧
    slot.inputs[n.input]? = some p ∧ e.holdings[p]? = some h ∧ n.token ∈ h.tokens := by
  constructor
  · intro hn
    obtain ⟨⟨p, t⟩, hx, hn⟩ := List.mem_flatMap.1 hn
    obtain ⟨⟨i, k⟩, hmem, rfl⟩ := List.mem_map.1 hn
    obtain ⟨slot, hi, hk⟩ := mem_consumers.1 hmem
    obtain ⟨h, hp, ht⟩ := mem_held.1 hx
    exact ⟨slot, p, h, hi, hk, hp, ht⟩
  · rintro ⟨slot, p, h, hi, hk, hp, ht⟩
    refine List.mem_flatMap.2 ⟨(p, n.token), mem_held.2 ⟨h, hp, ht⟩, ?_⟩
    exact List.mem_map.2 ⟨(n.slot, n.input), mem_consumers.2 ⟨slot, hi, hk⟩, rfl⟩

theorem offers_offered (e : Engine) : e.Offers e.offered := by
  intro n hn slot hat
  obtain ⟨slot', p, h, hi, hk, hp, ht⟩ := mem_offered.1 hn
  cases hat.symm.trans hi
  exact Reaction.holds_iff.2 ⟨p, h, hk, hp, Holding.holds_iff.2 ⟨n.token, ht, rfl⟩⟩

theorem seated_iff : e.Seated ↔ ∀ n ∈ e.offered, e.Settles n := by
  constructor
  · intro h n hn slot hat
    obtain ⟨slot', p, hold, hi, hk, hp, ht⟩ := mem_offered.1 hn
    cases hat.symm.trans hi
    exact h slot (List.mem_of_getElem? hat) p (List.mem_of_getElem? hk) hold hp n.token ht
  · intro h slot hs p hp hold hat t ht
    obtain ⟨i, hi⟩ := List.mem_iff_getElem?.1 hs
    obtain ⟨k, hk⟩ := List.mem_iff_getElem?.1 hp
    exact h ⟨i, k, t⟩ (mem_offered.2 ⟨slot, p, hold, hi, hk, hat, ht⟩) slot hi

theorem Brisk.still (h : e.Brisk [] [] []) : e.Still := by
  refine ⟨h.running, h.active, fun slot hs heager k t => ?_⟩
  obtain ⟨i, hi⟩ := List.mem_iff_getElem?.1 hs
  by_contra hheld
  obtain ⟨p, hold, hk, hp, ht⟩ := Reaction.holds_iff.1 (by simpa using hheld)
  obtain ⟨u, hu, hid⟩ := Holding.holds_iff.1 ht
  have hserved := h.served i slot List.not_mem_nil hi heager k p hk t.id
  have hcount : 1 ≤ (stock e.holdings).count (p, t.id) :=
    Multiset.one_le_count_iff_mem.2 (mem_stock.2 ⟨hold, hp, u, hu, hid⟩)
  have hnone : (marks []).count (i, k, t.id) + (entries []).count (p, t.id) = 0 := rfl
  omega

/-- No token that is in a place ends the run of a net at rest. -/
theorem Brisk.accept_held (h : e.Brisk [] [] []) : e.acceptAll e.held = (e, e.offered, []) := by
  obtain ⟨hnotices, hcases⟩ := acceptAll_running h.running e.held
  rcases hcases with ⟨x, hx, hold, hat, hterminal, -⟩ | ⟨hsame, hsilent, -⟩
  · obtain ⟨hold', hat', ht⟩ := mem_held.1 hx
    have hended := h.unended x.1 hold hat hterminal x.2.id
    have hcount := Multiset.one_le_count_iff_mem.2 (mem_stock.2 ⟨hold', hat', x.2, ht, rfl⟩)
    have hnone : (entries []).count (x.1, x.2.id) = 0 := rfl
    omega
  · exact Prod.ext hsame (Prod.ext hnotices hsilent)

/-- A net that differs in nothing but the nets within. -/
structure Alike (e e' : Engine) : Prop where
  rest : e' = { e with slots := e'.slots }
  length : e'.slots.length = e.slots.length
  slots : ∀ (i : Nat) (slot : Slot), e.slots[i]? = some slot →
    ∃ tr, e'.slots[i]? = some { slot with transition := tr } ∧
      (tr = slot.transition ∨ ∃ nest t child child', slot.transition = .busy nest t child ∧
        tr = .busy nest t child')

theorem Alike.before (h : e.Alike e') {i : Nat} {slot' : Slot} (hi : e'.slots[i]? = some slot') :
    ∃ slot, e.slots[i]? = some slot ∧ slot' = { slot with transition := slot'.transition } ∧
      (slot'.transition = slot.transition ∨ ∃ nest t child child',
        slot.transition = .busy nest t child ∧ slot'.transition = .busy nest t child') := by
  obtain ⟨hlt, -⟩ := List.getElem?_eq_some_iff.1 hi
  rw [h.length] at hlt
  have hold := List.getElem?_eq_getElem hlt
  obtain ⟨tr, hat, hcases⟩ := h.slots i _ hold
  cases hi.symm.trans hat
  exact ⟨_, hold, rfl, hcases⟩

theorem Alike.holdings (h : e.Alike e') : e'.holdings = e.holdings := by
  rw [h.rest]

theorem Alike.atHand (h : e.Alike e') : e'.atHand = e.atHand := by
  unfold Engine.atHand
  congr 1
  apply List.ext_getElem?
  intro i
  rw [List.getElem?_map, List.getElem?_map]
  cases hi : e'.slots[i]? with
  | none =>
    have hnone := List.getElem?_eq_none_iff.1 hi
    rw [h.length] at hnone
    rw [List.getElem?_eq_none hnone]
    rfl
  | some slot' =>
    obtain ⟨slot, hold, heq, hcases⟩ := h.before hi
    rw [hold, Option.map_some, Option.map_some]
    have hreaction : e'.reaction slot' = e.reaction slot := by
      rw [heq]
      simp only [reaction, h.holdings]
    rw [hreaction]
    rcases hcases with hsame | ⟨nest, t, child, child', hbusy, hbusy'⟩
    · rw [hsame]
    · rw [hbusy, hbusy']
      rfl

theorem Brisk.alike (hb : e.Brisk [] [] []) (h : e.Alike e') : e'.Brisk [] [] [] := by
  have hstatus : e'.status = e.status := by rw [h.rest]
  have hcompletion : e'.completion = e.completion := by rw [h.rest]
  have hhalted : e'.haltedBy = e.haltedBy := by rw [h.rest]
  refine ⟨hstatus.trans hb.running, fun slot' hs => ?_, hcompletion.trans hb.completion,
    hhalted.trans hb.haltedBy, ?_, fun i slot' _ hi heager => ?_⟩
  · obtain ⟨i, hi⟩ := List.mem_iff_getElem?.1 hs
    obtain ⟨slot, hold, heq, -⟩ := h.before hi
    rw [heq]
    exact hb.active slot (List.mem_of_getElem? hold)
  · rw [h.holdings]
    exact hb.unended
  · obtain ⟨slot, hold, heq, hcases⟩ := h.before hi
    rw [h.holdings, heq]
    rcases hcases with hsame | ⟨nest, t, child, child', -, hbusy⟩
    · rw [hsame] at heager
      exact hb.served i slot List.not_mem_nil hold heager
    · rw [hbusy] at heager
      cases heager

/-- How a net goes on that has just been paused. -/
theorem resume_pause (h : e.Awake) (now : Timestamp) (fuel : Nat) (s : Supply) :
    resume (fuel + 1) (e.pause now).1 s =
      match resumeSlots (resume fuel) (drive fuel) fuel
        (e.lulled now (List.range e.slots.length)) s (List.range e.slots.length) with
      | none => none
      | some v =>
        match v.result with
        | .error f => some ⟨v.engine, v.supply, v.events, .error f⟩
        | .ok () => (drive fuel (v.engine.acceptAll e.held).1
            (v.notices ++ (v.engine.acceptAll e.held).2.1) v.supply).map
              (·.after (v.events ++ (v.engine.acceptAll e.held).2.2)) := by
  have hb : e.Brisk [] [] [] := h.here
  have hpaused : ¬ (e.hushed now).status ≠ .paused := by
    simp only [hushed, hb.running]
    exact fun hne => hne rfl
  have hlength : (e.hushed now).activate.slots.length = e.slots.length := by
    simp only [hushed, activate, List.length_map]
  have hheld : (e.lulled now (List.range e.slots.length)).held = e.held := rfl
  rw [pause_eq h.pausable]
  unfold resume
  rw [if_neg hpaused]
  dsimp only
  rewrite [woken_hushed hb, hlength, hheld]
  rfl

theorem filterMap_range {α : Type} (xs : List α) :
    (List.range xs.length).filterMap (xs[·]?) = xs := by
  induction xs with
  | nil => rfl
  | cons x rest ih =>
    rw [List.length_cons, List.range_succ_eq_map, List.filterMap_cons, List.filterMap_map]
    exact congrArg (x :: ·) ih

/-- One bound for all members of a list. -/
theorem exists_bound {α : Type} {P : α → Nat → Prop} {xs : List α}
    (h : ∀ x ∈ xs, ∃ n, ∀ m, n ≤ m → P x m) : ∃ n, ∀ x ∈ xs, ∀ m, n ≤ m → P x m := by
  induction xs with
  | nil => exact ⟨0, List.forall_mem_nil _⟩
  | cons x rest ih =>
    obtain ⟨hx, hrest⟩ := List.forall_mem_cons.1 h
    obtain ⟨n, hn⟩ := hx
    obtain ⟨m, hm⟩ := ih hrest
    refine ⟨n + m, List.forall_mem_cons.2 ⟨fun k hk => hn k (by omega), fun y hy k hk => ?_⟩⟩
    exact hm y hy k (by omega)

/-- A net whose tokens all sit in their joins is the same after a pause. -/
theorem resume_seated (now : Timestamp) (h : e.Throughout fun e =>
      e.Brisk [] [] [] ∧ e.Seated ∧ ∀ slot ∈ e.slots, ∀ inputs pending,
        slot.transition = .join inputs pending → ∀ g ∈ pending,
          g.slots.length = slot.inputs.length) :
    ∃ n, ∀ fuel, n ≤ fuel → ∀ s,
      resume fuel (e.pause now).1 s = some ⟨e, s, e.awaited, .ok ()⟩ := by
  induction h with
  | @intro e here inside ih =>
    obtain ⟨hb, hseated, hfull⟩ := here
    have hawake : e.Awake := (Throughout.intro ⟨hb, hseated, hfull⟩ inside).imp fun e he => he.1
    have hinside : ∃ n, ∀ slot ∈ e.slots, ∀ m, n ≤ m → ∀ nest t child,
        slot.transition = .busy nest t child → ∀ s,
          resume m (child.pause now).1 s = some ⟨child, s, child.awaited, .ok ()⟩ := by
      refine exists_bound fun slot hs => ?_
      by_cases hbusy : ∃ nest t child, slot.transition = .busy nest t child
      · obtain ⟨nest, t, child, htr⟩ := hbusy
        obtain ⟨n, hn⟩ := ih slot hs nest t child htr
        refine ⟨n, fun m hm nest' t' child' htr' => ?_⟩
        cases htr.symm.trans htr'
        exact hn m hm
      · exact ⟨0, fun _ _ nest t child htr => absurd ⟨nest, t, child, htr⟩ hbusy⟩
    obtain ⟨n, hn⟩ := hinside
    refine ⟨n + e.offered.length + 2, fun fuel hfuel s => ?_⟩
    obtain ⟨fuel, rfl⟩ : ∃ m, fuel = m + 1 := ⟨fuel - 1, by omega⟩
    have hslots : resumeSlots (resume fuel) (drive fuel) fuel
        (e.lulled now (List.range e.slots.length)) s (List.range e.slots.length) =
          some ⟨e, [], s, e.awaited, .ok ()⟩ := by
      rw [resumeSlots_awaited hb.running (fun slot hs nest t child htr =>
        hn slot hs fuel (by omega) nest t child htr s) List.nodup_range
        fun i hi => List.mem_range.1 hi, filterMap_range, awaited_eq]
    have hdrive : drive fuel e e.offered s = some ⟨e, s, [], .ok ()⟩ :=
      drive_settled hb.still (offers_offered e) hfull (seated_iff.1 hseated) (by omega)
    rw [resume_pause hawake, hslots]
    simp only [hb.accept_held, List.nil_append, List.append_nil, hdrive, Option.map_some, Run.after]

/-- The nets within that have gone on are all that may have changed. -/
theorem Roused.alike {again : Engine → Supply → Option Run} {e' : Engine}
    (h : Roused again (List.range e.slots.length)
      (e.lulled now (List.range e.slots.length)) e') : e.Alike e' := by
  refine ⟨h.outside, ?_, fun i slot hi => ?_⟩
  · have hlength := h.length
    rw [lulled, List.length_mapIdx] at hlength
    exact hlength
  · obtain ⟨hlt, -⟩ := List.getElem?_eq_some_iff.1 hi
    have hlulled := lulled_at now (List.range e.slots.length) hi
    rw [if_pos (List.mem_range.2 hlt)] at hlulled
    obtain ⟨tr, hat, hwakes, -⟩ := h.stands i _ hlulled
    refine ⟨tr, hat, ?_⟩
    replace hwakes := hwakes (List.mem_range.2 hlt)
    dsimp only at hwakes
    generalize hhushed : slot.transition.hushed now = asleep at hwakes
    cases hwakes with
    | same vacant =>
      left
      refine hhushed.symm.trans (Transition.hushed_of_vacant fun nest t child hbusy => ?_)
      rw [hbusy] at hhushed
      exact vacant _ _ _ hhushed.symm
    | nested =>
      obtain ⟨before, hbusy, -⟩ := Transition.hushed_busy hhushed
      exact .inr ⟨_, _, _, _, hbusy, rfl⟩

/-- A net that is the same after a pause, and in which nothing has fired, had all
its tokens in their joins. -/
theorem seated_of_resume {fuel : Nat} (now : Timestamp) (h : e.Awake) {run : Run}
    (hrun : resume fuel (e.pause now).1 s = some run) (ok : run.result = .ok ())
    (quiet : ∀ a, .fired a ∉ run.events) :
    (∀ x ∈ run.events, ¬ x.Final) ∧ (run.engine = e → e.Throughout Seated) := by
  induction fuel generalizing e s run with
  | zero => cases hrun
  | succ fuel ih =>
    have hb : e.Brisk [] [] [] := h.here
    rw [resume_pause h] at hrun
    split at hrun
    · cases hrun
    rename_i v hv
    split at hrun
    · obtain rfl := Option.some.inj hrun
      cases ok
    rename_i hok
    obtain ⟨last, hlast, rfl⟩ := Option.map_eq_some_iff.1 hrun
    have hlingers : ∀ i ∈ List.range e.slots.length, ∀ slot,
        (e.lulled now (List.range e.slots.length)).slots[i]? = some slot → ∀ nest t child,
          slot.transition = .busy nest t child → Again.Lingers (resume fuel) child := by
      intro i hi slot hat nest t child hbusy s' run' hrun' ok' quiet'
      have hslot := List.getElem?_eq_getElem (List.mem_range.1 hi)
      rw [lulled_at _ _ hslot, if_pos hi] at hat
      obtain rfl := Option.some.inj hat
      obtain ⟨before, hbefore, rfl⟩ := Transition.hushed_busy hbusy
      exact (ih (h.child (List.getElem_mem _) hbefore) hrun' ok' quiet').1
    -- Nothing fires while the steps go on, so only the nets within can be others than before.
    obtain ⟨hnotices, hunended, hroused⟩ := resumeSlots_quiet
      (e := e.lulled now (List.range e.slots.length)) List.nodup_range hb.running hlingers hv hok
      fun a ha => quiet a (List.mem_append_left _ (List.mem_append_left _ ha))
    have halike : e.Alike v.engine := hroused.alike
    have hb' : v.engine.Brisk [] [] [] := hb.alike halike
    have hheld : v.engine.held = e.held := by
      unfold held
      rw [halike.holdings]
    have haccept : v.engine.acceptAll e.held = (v.engine, v.engine.offered, []) := by
      rw [← hheld]
      exact hb'.accept_held
    simp only [haccept, hnotices, List.nil_append] at hlast
    obtain ⟨hsilent, hcases⟩ := drive_quiet hb'.still (offers_offered _) hlast ok fun a ha =>
      quiet a (List.mem_append_right _ ha)
    refine ⟨fun x hx => ?_, fun hsame => ?_⟩
    · simp only [Run.after, haccept, hsilent, List.append_nil] at hx
      exact hunended x hx
    have hlast' : last.engine = e := hsame
    -- A token that finds a seat now is one more sibling at hand, and the net is not the same.
    rcases hcases with ⟨hengine', hsettles⟩ | hmore
    · have hunchanged : v.engine = e := hengine'.symm.trans hlast'
      rw [hunchanged] at hsettles
      refine .intro (seated_iff.2 hsettles) fun slot hs nest t child hbusy => ?_
      obtain ⟨i, hi⟩ := List.mem_iff_getElem?.1 hs
      obtain ⟨hlt, -⟩ := List.getElem?_eq_some_iff.1 hi
      have hlulled := lulled_at now (List.range e.slots.length) hi
      rw [if_pos (List.mem_range.2 hlt), hbusy] at hlulled
      obtain ⟨tr, hat, hwakes, -⟩ := hroused.stands i _ hlulled
      rw [hunchanged, hi] at hat
      have htr : slot.transition = tr := congrArg Slot.transition (Option.some.inj hat)
      have hwoken := hwakes (List.mem_range.2 hlt)
      rw [← htr, hbusy] at hwoken
      obtain ⟨s', run', hrun', ok', quiet', hchild⟩ := hwoken.busy
      exact (ih (h.child hs hbusy) hrun' ok' quiet').2 hchild
    · rw [hlast', halike.atHand] at hmore
      exact absurd hmore (lt_irrefl _)

def World.careless : World := ⟨fun _ => True, fun _ _ _ => True, fun _ => True⟩

theorem Reachable.widths {w : World} {fitter : Fitter} {plan : Plan} (hf : fitter.Regular)
    (h : Reachable w fitter plan e) : e.Throughout (Orderly fun inputs g => g.Full inputs) := by
  refine h.orderly (A := fun _ => True) hf Generation.full_lasting
    (fun snapshot _ => Snapshot.throughout_of_forall (fun _ => trivial) snapshot)
    (fun _ _ _ => trivial) fun e snapshot hs _ slot hslot inputs pending htr g hg => ?_
  rcases hs.joins slot hslot inputs pending htr with rfl | ⟨-, hwidth⟩
  · cases hg
  · exact hwidth g hg

theorem Reachable.full {w : World} {fitter : Fitter} {plan : Plan} (hf : fitter.Regular)
    (h : Reachable w fitter plan e) : e.Throughout fun e => ∀ slot ∈ e.slots, ∀ inputs pending,
      slot.transition = .join inputs pending → ∀ g ∈ pending,
        g.slots.length = slot.inputs.length := by
  refine ((h.steady hf).fits.and (h.widths hf)).imp fun e he slot hs inputs pending htr g hg => ?_
  have hsuits := (he.1.slot hf hs).suits
  rw [htr] at hsuits
  obtain ⟨hinputs, -⟩ := hsuits
  exact (he.2 slot hs inputs pending htr g hg).trans hinputs

/-- A running net can be paused. If every token behind a join sits in it, at every
depth, the net is the same when it goes on, and all that is reported is what its
tasks wait for. If not, then resuming fails, changes the net, or fires a step. -/
theorem pause_unnoticed_iff_seated {plan : Plan} (h : Reachable World.careless .standard plan e)
    (running : e.status = .running) (now : Timestamp) (s : Supply) :
    (∃ snapshot, (e.pause now).2 = .ok snapshot) ∧
    (e.Throughout Seated → ∃ n, ∀ fuel, n ≤ fuel →
      resume fuel (e.pause now).1 s = some ⟨e, s, e.awaited, .ok ()⟩) ∧
    (¬ e.Throughout Seated → ∀ fuel run, resume fuel (e.pause now).1 s = some run →
      run.result = .ok () → run.engine = e → ∃ a, .fired a ∈ run.events) := by
  have hf := Fitter.standard_regular
  have hawake : e.Awake := (h.steady hf).running running
  refine ⟨⟨e.captured now, ?_⟩, fun hseated => ?_, fun hloose fuel run hrun ok hsame => ?_⟩
  · rw [pause_eq hawake.pausable]
  · obtain ⟨n, hn⟩ := resume_seated now (((hawake.and hseated).and (h.full hf)).imp
      fun e he => ⟨he.1.1, he.1.2, he.2⟩)
    exact ⟨n, fun fuel hfuel => hn fuel hfuel s⟩
  · by_contra hquiet
    have hseated := (seated_of_resume now hawake hrun ok fun a ha => hquiet ⟨a, ha⟩).2 hsame
    exact hloose hseated

/-- A plan for an errand: one half of a work item waits for the other to come back. -/
def errand : Plan where
  id := "errand"
  version := 1
  places := [{ id := "in", role := .start }, { id := "left" }, { id := "right" }, { id := "back" },
    { id := "out", role := .terminal }]
  steps := [⟨"split", none, ["in"], ["left", "right"], .split⟩,
    ⟨"join", none, ["left", "back"], ["out"], .join⟩,
    ⟨"fetch", none, ["right"], ["back"], .task "fetch"⟩]

theorem errand_unnoticed : ∃ e run, build .standard errand = .ok e ∧
    e.answer 20 serial (.start job) = some run ∧ run.engine.awaited.length = 1 ∧
    ∃ n, ∀ fuel, n ≤ fuel → resume fuel (run.engine.pause default).1 run.supply =
      some ⟨run.engine, run.supply, run.engine.awaited, .ok ()⟩ := by
  have hfacts : ((build .standard errand).toOption.bind fun e =>
      (e.answer 20 serial (.start job)).map fun run => (run.engine.status,
        decide run.engine.Seated, run.engine.slots.all (·.transition.nest?.isNone),
        run.engine.awaited.length)) = some (.running, true, true, 1) := by
    decide +kernel
  obtain ⟨e, hbuild⟩ : ∃ e, build .standard errand = .ok e := ⟨_, rfl⟩
  rw [hbuild] at hfacts
  obtain ⟨run, hanswer, hfacts⟩ := Option.map_eq_some_iff.1 hfacts
  obtain ⟨hrunning, hfacts⟩ := Prod.mk.inj hfacts
  obtain ⟨hseated, hfacts⟩ := Prod.mk.inj hfacts
  obtain ⟨hvacant, hawaited⟩ := Prod.mk.inj hfacts
  have hall : run.engine.Throughout Seated := by
    refine .intro (of_decide_eq_true hseated) fun slot hs nest t child hbusy => ?_
    have hnone := List.all_eq_true.1 hvacant slot hs
    rw [hbusy] at hnone
    cases hnone
  obtain ⟨-, hunnoticed, -⟩ := pause_unnoticed_iff_seated
    (.called (.built hbuild) (fun _ _ => trivial) hanswer trivial) hrunning default run.supply
  exact ⟨e, run, hbuild, hanswer, hawaited, hunnoticed hall⟩

/-- The errand with a way around the fetching. -/
def detour : Plan :=
  { errand with
    id := "detour"
    steps := errand.steps ++ [⟨"move", none, ["left"], ["back"], .pass 0⟩] }

/-- The half that went around is a stranger to the join once the net was paused. -/
theorem detour_halts : ∃ e first second last, build .standard detour = .ok e ∧
    e.answer 20 serial (.start job) = some first ∧
    first.engine.answer 20 first.supply (.complete ["fetch"] ⟨2⟩ 0) = some second ∧
    second.engine.status = .running ∧
    resume 20 (second.engine.pause default).1 second.supply = some last ∧
    last.engine.status = .halted := by
  have hfacts : ((build .standard detour).toOption.bind fun e =>
      (e.answer 20 serial (.start job)).bind fun first =>
        (first.engine.answer 20 first.supply (.complete ["fetch"] ⟨2⟩ 0)).bind fun second =>
          (resume 20 (second.engine.pause default).1 second.supply).map fun last =>
            (second.engine.status, last.engine.status)) = some (.running, .halted) := by
    decide +kernel
  obtain ⟨e, hbuild⟩ : ∃ e, build .standard detour = .ok e := ⟨_, rfl⟩
  rw [hbuild] at hfacts
  change (e.answer 20 serial (.start job)).bind _ = _ at hfacts
  obtain ⟨first, hfirst, hfacts⟩ := Option.bind_eq_some_iff.1 hfacts
  obtain ⟨second, hsecond, hfacts⟩ := Option.bind_eq_some_iff.1 hfacts
  obtain ⟨last, hlast, hfacts⟩ := Option.map_eq_some_iff.1 hfacts
  obtain ⟨hrunning, hhalted⟩ := Prod.mk.inj hfacts
  exact ⟨e, first, second, last, hbuild, hfirst, hsecond, hrunning, hlast, hhalted⟩

end RecipeNet.Engine
