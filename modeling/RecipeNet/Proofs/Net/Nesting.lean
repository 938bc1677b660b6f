import RecipeNet.Proofs.Net.Seating

/-!
Steps that run a nested plan. What the nested net does is done by the net around
it, report by report; its completion releases the token to the output of the
terminal place and lets the next token begin. A nested net never starts in a
state that could refuse the token, and every terminal place has its output.
-/

namespace RecipeNet

/-- How an operation on a net may end: at rest, complete, or halted by a fault. -/
structure Run.Proper (sc : Scene) (run : Run) : Prop where
  course : ∃ lore, Course sc run.events ⟨run.engine, run.supply, lore⟩
  ok : run.result = .ok () → run.engine.status = .completed ∨ run.engine.Awake
  error : ∀ f, run.result = .error f → f.halts = true ∧ run.engine.status = .halted ∧
    run.engine.haltedBy = some f

def Drive.Proper (fitter : Fitter) (drive : Drive) : Prop :=
  ∀ (sc : Scene) (queue : List Engine.Notice) (run : Run),
    sc.Sound fitter →
    sc.engine.status = .completed ∨ sc.engine.Alert [] [] [] queue →
    (∀ n ∈ queue, n.token ∈ sc.lore) → drive sc.engine queue sc.supply = some run →
    run.Proper sc

theorem Run.Proper.after {sc mid : Scene} {run : Run} {events : List Event}
    (h : run.Proper mid) (course : Course sc events mid) : (run.after events).Proper sc := by
  obtain ⟨lore, hcourse⟩ := h.course
  exact ⟨⟨lore, course.trans hcourse⟩, h.ok, h.error⟩

/-- The course of a nested net is one of the net around it. -/
theorem Course.inside {a b : Scene} {events : List Event} (h : Course a events b) {e : Engine}
    {i : Nat} {slot : Slot} {nest : Nest} {t : Token} (running : e.status = .running)
    (stands : e.slots[i]? = some slot) (busy : slot.transition = .busy nest t a.engine)
    {lore : Lore} (below : a.lore = lore.below slot.step) :
    Course ⟨e, a.supply, lore⟩ (events.filterMap (·.within slot.step))
      ⟨e.become i e.holdings (.busy nest t b.engine), b.supply,
        lore.graft slot.step b.lore⟩ := by
  induction h generalizing e slot lore with
  | nil sc =>
    have hself := Engine.become_self stands
    rw [busy] at hself
    rw [hself, below, Lore.graft_below]
    exact .nil _
  | @cons a b c first more act rest ih =>
    obtain ⟨engine, supply, inner⟩ := a
    dsimp only at below
    subst below
    have hact : Act ⟨e, supply, lore⟩ (first.filterMap (·.within slot.step))
        ⟨e.become i e.holdings (.busy nest t b.engine), b.supply,
          lore.graft slot.step b.lore⟩ := .inside running stands busy act
    have hstands := Engine.become_slot e.holdings (.busy nest t b.engine) stands
    have hrest := ih (e := e.become i e.holdings (.busy nest t b.engine)) running hstands rfl
      (Lore.below_graft lore slot.step b.lore).symm
    rw [Engine.become_become, Lore.graft_graft] at hrest
    rw [List.filterMap_append]
    exact .cons hact hrest

namespace Nest

variable {nest : Nest} {running : Option (Token × Engine)} {done : Bool} {r : Reaction}

def relay (r : Reaction) (events : List Event) : Reaction :=
  { r with events := r.events ++ events.filterMap (·.within r.step) }

theorem absorb_cons {e : Event} (he : ¬ e.Final) (rest : List Event) :
    nest.absorb running done r (e :: rest) = nest.absorb running done (relay r [e]) rest := by
  cases e with
  | fired step => rfl
  | started step activity t => rfl
  | completed place t => exact absurd trivial he

theorem relay_relay (r : Reaction) (first more : List Event) :
    relay (relay r first) more = relay r (first ++ more) := by
  simp only [relay, List.filterMap_append, List.append_assoc]

theorem absorb_front {front : List Event} (hfront : ∀ e ∈ front, ¬ e.Final)
    (rest : List Event) :
    nest.absorb running done r (front ++ rest) =
      nest.absorb running done (relay r front) rest := by
  induction front generalizing r with
  | nil =>
    have hself : relay r [] = r := Station.silent r
    rw [hself]
    rfl
  | cons e front ih =>
    rw [List.cons_append, absorb_cons (hfront e List.mem_cons_self),
      ih fun x hx => hfront x (List.mem_cons_of_mem _ hx), relay_relay]
    rfl

/-- Reports without a completion leave the nested net running. -/
theorem absorb_quiet {events : List Event} (h : ∀ e ∈ events, ¬ e.Final) :
    nest.absorb running done r events = (relay r events, running, .ok done) := by
  have hall : nest.absorb running done r (events ++ []) = _ := absorb_front h []
  rw [List.append_nil] at hall
  exact hall

/-- What has been passed on without a fault has been passed on as a whole, and the nested net
runs on or has ended. -/
theorem absorb_ok {events : List Event} {r' : Reaction} {left : Option (Token × Engine)}
    {done' : Bool} (h : nest.absorb running done r events = (r', left, .ok done')) :
    r'.step = r.step ∧ r'.events = r.events ++ events.filterMap (·.within r.step) ∧
      (left = none ∨ left = running) := by
  induction events generalizing r running done with
  | nil =>
    cases h
    exact ⟨rfl, (List.append_nil _).symm, .inr rfl⟩
  | cons e rest ih =>
    by_cases hfinal : e.Final
    · cases e with
      | completed place u =>
        simp only [absorb] at h
        split at h
        · cases h
        split at h
        · exact ih h
        split at h
        · cases h
        · rename_i mid hproduce
          obtain ⟨place', -, rfl⟩ := Reaction.produce_ok hproduce
          obtain ⟨hstep, hevents, hleft⟩ := ih h
          exact ⟨hstep, hevents, .inl (hleft.elim id id)⟩
      | fired => cases hfinal
      | started => cases hfinal
    · rw [absorb_cons hfinal] at h
      obtain ⟨hstep, hevents, hleft⟩ := ih h
      refine ⟨hstep, ?_, hleft⟩
      rw [hevents]
      exact congrArg Reaction.events (relay_relay r [e] rest)

/-- Reports that end with a completion release the token. -/
theorem absorb_completed {front : List Event} (h : ∀ e ∈ front, ¬ e.Final) {place : String}
    {u t : Token} {child : Engine} {output target : Nat}
    (mapped : nest.outputs.output? place = some output)
    (isTarget : r.outputs[output]? = some target) :
    nest.absorb (some (t, child)) false r (front ++ [.completed place u]) =
      ((relay r front).put target t, none, .ok true) := by
  have hproduce : (relay r front).produce output t = .ok ((relay r front).put target t) := by
    simp only [Reaction.produce, Reaction.outputPlace, relay, isTarget]
    rfl
  rw [absorb_front h]
  simp only [absorb, mapped, hproduce]

end Nest

namespace Engine

theorem Built.stock_entered {fitter : Fitter} {plan : Plan} {e : Engine} (h : e.Built fitter plan)
    (t : Token) (x : Nat × TokenId) :
    (stock (e.entered t).holdings).count x ≤ (entries [(e.startPlace, t)]).count x := by
  have hempty : stock e.holdings = 0 := by
    refine Multiset.eq_zero_of_forall_notMem fun x hx => ?_
    obtain ⟨hold, hat, u, hu, -⟩ := mem_stock.1 hx
    have hmem := List.mem_of_getElem? hat
    rw [h.holdings] at hmem
    obtain ⟨place, -, rfl⟩ := List.mem_map.1 hmem
    cases hu
  have hadd := stock_add e.holdings e.startPlace t x
  rw [hempty, Multiset.count_zero, Nat.zero_add] at hadd
  exact hadd

/-- A new net that has been given its start token owes it to those that read the
start place, and nothing else. -/
theorem Built.alert_entered {fitter : Fitter} {plan : Plan} {e : Engine} (h : e.Built fitter plan)
    (t : Token) : (e.entered t).Alert [] [] [(e.startPlace, t)] [] := by
  have hbound := h.stock_entered t
  refine ⟨⟨rfl, ?_, h.completion, h.haltedBy, fun p hold _ _ id => hbound _,
    fun i slot _ _ _ k p _ id => Nat.le_add_left_of_le (hbound _)⟩,
    fun i slot nest u child _ hi hbusy =>
      absurd hbusy (entered_vacant h t (List.mem_of_getElem? hi) nest u child)⟩
  intro slot hs
  obtain ⟨old, hold, rfl⟩ := List.mem_map.1 hs
  obtain ⟨step, -, hfit⟩ := exists_left_of_forall₂ h.slots hold
  obtain ⟨inputs, outputs, fitting, -, -, -, rfl⟩ := fitSlot_ok.1 hfit
  rfl

/-- It is complete or alert when note has been taken of the start token. -/
theorem Built.ready_entered {fitter : Fitter} {plan : Plan} {e : Engine}
    (h : e.Built fitter plan) (t : Token) :
    ((e.entered t).acceptAll [(e.startPlace, t)]).1.status = .completed ∨
      ((e.entered t).acceptAll [(e.startPlace, t)]).1.Alert [] [] []
        ((e.entered t).acceptAll [(e.startPlace, t)]).2.1 := by
  have halert : (e.entered t).Alert [] [] ([] ++ [(e.startPlace, t)]) [] := h.alert_entered t
  have hready := halert.accepted
  rw [List.nil_append] at hready
  exact hready

end Engine
end RecipeNet
