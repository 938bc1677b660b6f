import RecipeNet.Proofs.Net.Nesting

/-!
What becomes of a notice at a step with a nested plan. The nested net is built,
given its start token and run; if it completes at once, the token comes out and
the next one that waits goes in, until one stays or none is left.
-/

namespace RecipeNet

namespace Station

variable {fitter : Fitter} {w : Station} {r : Reaction} {s : Supply} {lore : Lore}
  {nest : Nest} {t : Token} {child : Engine} {reacted : Reacted} {drive : Drive}

theorem Underway.suits (hf : fitter.Regular) (hw : w.Ready fitter) {tr : Transition}
    (h : w.Underway r tr s lore) :
    tr.Suits fitter w.slot.inputs.length w.slot.outputs.length := by
  have hsound := h.course.sound hf hw.sound
  exact (hsound.fits.slot hf (List.mem_of_getElem? (hw.stands_now r tr))).suits

/-- Reports of the nested net, passed on. -/
theorem Underway.relayed (hw : w.Ready fitter) (h : w.Underway r (.busy nest t child) s lore)
    {events : List Event} {child' : Engine} {s' : Supply} {lore' : Lore}
    (course : Course ⟨child, s, lore.below w.slot.step⟩ events ⟨child', s', lore'⟩) :
    w.Underway (Nest.relay r events) (.busy nest t child') s' (lore.graft w.slot.step lore') := by
  have hinside := course.inside h.running (hw.stands_now r (.busy nest t child)) rfl rfl
  have hcourse : Course ⟨w.engine r (.busy nest t child), s, lore⟩
      (events.filterMap (·.within w.slot.step))
      ⟨w.engine (Nest.relay r events) (.busy nest t child'), s',
        lore.graft w.slot.step lore'⟩ := by
    simp only [engine, Engine.become_become] at hinside ⊢
    exact hinside
  refine h.advance [] ⟨rfl, rfl, rfl, rfl⟩ hcourse ?_ (List.append_nil _).symm
    (List.forall_mem_nil _) fun x => Nat.le_add_right _ _
  rw [← h.step]
  rfl

/-- The token comes out of a nested net that is complete. -/
theorem Underway.closed (hw : w.Ready fitter) (h : w.Underway r (.busy nest t child) s lore)
    (hlore : t ∈ lore) (ended : child.status = .completed) {terminal : String} {u : Token}
    (completion : child.completion = some (terminal, u)) {output place : Nat}
    (mapped : nest.outputs.output? terminal = some output)
    (target : w.slot.outputs[output]? = some place) :
    w.Underway (r.put place t) (.idle nest) s lore := by
  have act : Act ⟨w.engine r (.busy nest t child), s, lore⟩ [] ⟨(w.engine r
      (.busy nest t child)).become w.i (r.holdings.modify place (·.add t)) (.idle nest), s, lore⟩ :=
    .closed h.running (hw.stands_now r (.busy nest t child)) rfl ended completion mapped target
  have hcourse : Course ⟨w.engine r (.busy nest t child), s, lore⟩ []
      ⟨w.engine (r.put place t) (.idle nest), s, lore⟩ := by
    have hone := Course.of_act act
    simp only [engine, Engine.become_become] at hone ⊢
    exact hone
  exact h.advance [(place, t)] (Reaction.put_follows r place t) hcourse (List.append_nil _).symm
    rfl (List.forall_mem_singleton.2 hlore) fun x => stock_add r.holdings place t x

/-- A step with a nested plan is served when its place is empty. -/
theorem Underway.fine_empty (hf : fitter.Regular) (hw : w.Ready fitter)
    (h : w.Underway r (.idle nest) s lore) (empty : r.waiting? 0 = none) :
    w.Fine ⟨r, .idle nest, s, .ok ()⟩ := by
  refine h.fine hw (fun _ k p hk id => ?_) nofun
  have hone := (h.suits hf hw).1
  have hlt := (List.getElem?_eq_some_iff.1 hk).1
  obtain rfl : k = 0 := by omega
  have hnone : (stock r.holdings).count (p, id) = 0 := by
    refine Multiset.count_eq_zero.2 fun hmem => ?_
    obtain ⟨hold, hat, u, hu, -⟩ := mem_stock.1 hmem
    have hin : r.input? 0 = some hold := by
      rw [Reaction.input?, h.inputs, hk]
      exact hat
    rw [Reaction.waiting?, hin] at empty
    have hnil := List.head?_eq_none_iff.1 empty
    rw [hnil] at hu
    cases hu
  omega

/-- The first token of a place is held there, and known. -/
theorem Underway.waiting (hf : fitter.Regular) (hw : w.Ready fitter) {tr : Transition}
    (h : w.Underway r tr s lore) {waiting : Token} (hwait : r.waiting? 0 = some waiting) :
    r.holds 0 waiting = true ∧ waiting ∈ lore := by
  obtain ⟨hold, hin, hhead⟩ := Option.bind_eq_some_iff.1 hwait
  obtain ⟨place, hplace, hat⟩ := Option.bind_eq_some_iff.1 hin
  have hmem := List.mem_of_mem_head? hhead
  refine ⟨Reaction.holds_iff.2 ⟨place, hold, hplace, hat, ?_⟩, ?_⟩
  · exact Holding.holds_iff.2 ⟨waiting, hmem, rfl⟩
  · have hinformed := (h.course.sound hf hw.sound).informed
    exact hinformed.places hold (List.mem_of_getElem? hat) waiting hmem

/-- What follows an operation on the nested net: the token comes out and the next one
may go in, or the net within goes on or has failed. -/
theorem Underway.settles (hf : fitter.Regular) (hw : w.Ready fitter)
    (h : w.Underway r (.busy nest t child) s lore) (hopen : child.status ≠ .completed) {run : Run}
    (hrun : run.Proper ⟨child, s, lore.below w.slot.step⟩)
    {next : Reaction → Token → Supply → Option Reacted}
    (hsettle : nest.settle next t run r = some reacted) :
    (∃ r' s' lore', w.Underway r' (.idle nest) s' lore' ∧
      ((∃ waiting, r'.holds 0 waiting = true ∧ waiting ∈ lore' ∧
          next r' waiting s' = some reacted) ∨
        r'.waiting? 0 = none ∧ reacted = ⟨r', .idle nest, s', .ok ()⟩)) ∨
    ∃ r' lore', w.Underway r' (.busy nest t run.engine) run.supply lore' ∧
      run.engine.status ≠ .completed ∧
      reacted = ⟨r', .busy nest t run.engine, run.supply, run.result⟩ := by
  obtain ⟨lore', hcourse⟩ := hrun.course
  have hsound := h.course.sound hf hw.sound
  have hstands := List.mem_of_getElem? (hw.stands_now r (.busy nest t child))
  rcases hcourse.ending hopen with
    ⟨front, place, u, hevents, hfront, hplace, hterminal, hdone, hcompletion⟩ | ⟨hquiet, hstill⟩
  · obtain ⟨-, -, -, hmapped⟩ := h.suits hf hw
    have hplan : child.plan = nest.plan := hsound.fits.2 _ hstands nest t child rfl
    have hfits : child.Fits fitter := (hsound.child hstands rfl).fits
    have hknown : place ∈ nest.plan.terminals := by
      rw [← hplan, Plan.terminals, ← hfits.places]
      exact List.mem_filter.2 ⟨hplace, hterminal⟩
    obtain ⟨output, hout, hlt⟩ := hmapped place hknown
    have htarget := List.getElem?_eq_getElem hlt
    have htoken : t ∈ lore.graft w.slot.step lore' :=
      hsound.informed.steps _ hstands t List.mem_cons_self
    rw [hevents] at hcourse
    have hrelayed := h.relayed hw hcourse
    have hclosed := hrelayed.closed hw htoken hdone hcompletion hout htarget
    -- The end of the net within is not handed on.
    have hsame : Nest.relay r (front ++ [.completed place.id u]) = Nest.relay r front := by
      rw [← Nest.relay_relay]
      exact silent _
    rw [hsame] at hclosed
    -- A net that fails has been halted, and this one has ended.
    have hresult : run.result = .ok () := by
      cases hres : run.result with
      | ok v => rfl
      | error f =>
        have hhalted := (hrun.error f hres).2.1
        cases hdone.symm.trans hhalted
    unfold Nest.settle at hsettle
    rw [hevents, Nest.absorb_completed hfront hout (by rw [h.outputs]; exact htarget)]
      at hsettle
    simp only [hresult, if_true] at hsettle
    refine .inl ⟨_, _, _, hclosed, ?_⟩
    split at hsettle
    · rename_i waiting hwait
      obtain ⟨hheld, hlore⟩ := hclosed.waiting hf hw hwait
      exact .inl ⟨waiting, hheld, hlore, hsettle⟩
    · rename_i hempty
      exact .inr ⟨hempty, (Option.some.inj hsettle).symm⟩
  · have hrelayed := h.relayed hw hcourse
    refine .inr ⟨_, _, hrelayed, hstill, ?_⟩
    unfold Nest.settle at hsettle
    rw [Nest.absorb_quiet hquiet] at hsettle
    cases hres : run.result with
    | error f =>
      simp only [hres, Option.some.injEq] at hsettle
      exact hsettle.symm
    | ok v =>
      simp only [hres, Bool.false_eq_true, if_false] at hsettle
      split at hsettle
      · exact (Option.some.inj hsettle).symm
      · exact (Option.some.inj hsettle).symm

theorem Underway.fine_settle (hf : fitter.Regular) (hw : w.Ready fitter)
    (hawake : w.i ∉ w.asleep) (h : w.Underway r (.busy nest t child) s lore)
    (hopen : child.status ≠ .completed) {run : Run}
    (hrun : run.Proper ⟨child, s, lore.below w.slot.step⟩)
    {next : Reaction → Token → Supply → Option Reacted}
    (hnext : ∀ r' waiting s' lore', w.Underway r' (.idle nest) s' lore' →
      r'.holds 0 waiting = true → waiting ∈ lore' → next r' waiting s' = some reacted →
      w.Fine reacted)
    (hsettle : nest.settle next t run r = some reacted) : w.Fine reacted := by
  rcases h.settles hf hw hopen hrun hsettle with
    ⟨r', s', lore', hidle, ⟨waiting, hheld, hlore, hagain⟩ | ⟨hempty, rfl⟩⟩ |
    ⟨r', lore', hrelayed, hstill, rfl⟩
  · exact hnext r' waiting s' lore' hidle hheld hlore hagain
  · exact hidle.fine_empty hf hw hempty
  · cases hres : run.result with
    | error f =>
      obtain ⟨hhalts, -, hcause⟩ := hrun.error f hres
      refine ⟨nofun, fun f' hfault => ?_⟩
      obtain rfl := Except.error.inj hfault
      refine ⟨hhalts, lore', hrelayed.course.snoc_silent ?_⟩
      exact .sunk hrelayed.running (hw.stands_now _ (.busy nest t run.engine)) rfl hcause hhalts
    | ok v =>
      have hchild : run.engine.Awake := (hrun.ok hres).resolve_left hstill
      refine hrelayed.fine hw nofun fun nest' t' child' hbusy => ?_
      cases hbusy
      rw [if_neg hawake]
      exact hchild

/-- A net that has been built for a token and given its start token, and the run in which it
works off the notices of that. -/
structure Launched (w : Station) (fitter : Fitter) (drive : Drive) (nest : Nest) (t : Token)
    (child : Engine) (start : Token) (r : Reaction) (s : Supply) (lore : Lore) (run : Run) :
    Prop where
  built : child.Built fitter nest.plan
  underway : w.Underway r (.busy nest t (child.entered start)) s lore
  known : start ∈ lore.below w.slot.step
  drives : drive ((child.entered start).acceptAll [(child.startPlace, start)]).1
    ((child.entered start).acceptAll [(child.startPlace, start)]).2.1 s = some run

namespace Launched

variable {start : Token} {run : Run}

theorem made (h : w.Launched fitter drive nest t child start r s lore run) :
    ∀ x ∈ [(child.startPlace, start)], x.2 ∈ lore.below w.slot.step :=
  List.forall_mem_singleton.2 h.known

theorem course (h : w.Launched fitter drive nest t child start r s lore run) :
    Course ⟨child.entered start, s, lore.below w.slot.step⟩
      ((child.entered start).acceptAll [(child.startPlace, start)]).2.2
      ⟨((child.entered start).acceptAll [(child.startPlace, start)]).1, s,
        lore.below w.slot.step⟩ :=
  Engine.acceptAll_course h.made

theorem sound (h : w.Launched fitter drive nest t child start r s lore run) (hf : fitter.Regular)
    (hw : w.Ready fitter) :
    Scene.Sound fitter ⟨child.entered start, s, lore.below w.slot.step⟩ :=
  (h.underway.course.sound hf hw.sound).child (List.mem_of_getElem? (hw.stands_now r _)) rfl

theorem proper (h : w.Launched fitter drive nest t child start r s lore run) (hf : fitter.Regular)
    (hd : drive.Proper fitter) (hw : w.Ready fitter) :
    (run.after ((child.entered start).acceptAll [(child.startPlace, start)]).2.2).Proper
      ⟨child.entered start, s, lore.below w.slot.step⟩ :=
  (hd _ _ run (h.course.sound hf (h.sound hf hw)) (h.built.ready_entered start)
    (Engine.notices_known h.made) h.drives).after h.course

end Launched

/-- A token that is there goes into a net that is built for it. What follows depends on
how that net works off the notices of its start token. -/
theorem Underway.launches (hf : fitter.Regular) (hw : w.Ready fitter) {fuel : Nat}
    (h : w.Underway r (.idle nest) s lore) (held : r.holds 0 t = true) (known : t ∈ lore)
    (hlaunch : nest.launch drive (fuel + 1) r t s = some reacted) :
    ∃ child start r' s' lore' run, w.Launched fitter drive nest t child start r' s' lore' run ∧
      nest.settle (nest.launch drive fuel) t
        (run.after ((child.entered start).acceptAll [(child.startPlace, start)]).2.2) r' =
          some reacted := by
  obtain ⟨-, hfitter, hflaws, -⟩ := h.suits hf hw
  obtain ⟨child, hbuild⟩ := Engine.build_isOk hf hflaws
  have hb := Engine.built_of_build hbuild
  rw [← hfitter] at hbuild
  obtain ⟨r', hfire⟩ := Reaction.fire_single held (List.forall_mem_nil _)
  have hopened := h.fired hf hw (.launch nest child t hbuild) (List.forall_mem_singleton.2 known)
    hfire
  rw [silent] at hopened
  unfold Nest.launch at hlaunch
  simp only [hfire, hbuild, Engine.enter_created hb.status] at hlaunch
  split at hlaunch
  · cases hlaunch
  · rename_i run hdrive
    exact ⟨child, (Nest.startToken t s).1, r', _, _, run,
      ⟨hb, hopened, Lore.mem_grow_below.2 (.inr List.mem_cons_self), hdrive⟩, hlaunch⟩

/-- What holds of a launch, whatever the net comes to in it, if it holds of the next one when the
net completes and another token waits. -/
theorem Underway.launch_induction (hf : fitter.Regular) (hw : w.Ready fitter) {goal : Prop}
    (each : ∀ {fuel : Nat} {t : Token} {child : Engine} {start : Token} {r : Reaction} {s : Supply}
      {lore : Lore} {run : Run}, w.Launched fitter drive nest t child start r s lore run →
      (∀ r' waiting s' lore', w.Underway r' (.idle nest) s' lore' → r'.holds 0 waiting = true →
        waiting ∈ lore' → nest.launch drive fuel r' waiting s' = some reacted → goal) →
      nest.settle (nest.launch drive fuel) t
        (run.after ((child.entered start).acceptAll [(child.startPlace, start)]).2.2) r =
          some reacted → goal)
    (fuel : Nat) (h : w.Underway r (.idle nest) s lore) (held : r.holds 0 t = true)
    (known : t ∈ lore) (hlaunch : nest.launch drive fuel r t s = some reacted) : goal := by
  induction fuel generalizing r t s lore with
  | zero => cases hlaunch
  | succ fuel ih =>
    obtain ⟨child, start, r', s', lore', run, hlaunched, hsettle⟩ :=
      h.launches hf hw held known hlaunch
    exact each hlaunched (fun r' waiting s' lore' hidle hheld hlore => ih hidle hheld hlore) hsettle

/-- A step with a nested plan takes a token that is there. -/
theorem Underway.fine_launch (hf : fitter.Regular) (hd : drive.Proper fitter)
    (hw : w.Ready fitter) (hawake : w.i ∉ w.asleep) (fuel : Nat)
    (h : w.Underway r (.idle nest) s lore) (held : r.holds 0 t = true) (known : t ∈ lore)
    (hlaunch : nest.launch drive fuel r t s = some reacted) : w.Fine reacted := by
  refine h.launch_induction hf hw (fun hlaunched hnext hsettle => ?_) fuel held known hlaunch
  exact hlaunched.underway.fine_settle hf hw hawake (fun hcompleted => by cases hcompleted)
    (hlaunched.proper hf hd hw) hnext hsettle

end Station
end RecipeNet
