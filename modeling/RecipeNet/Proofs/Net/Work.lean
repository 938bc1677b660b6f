import RecipeNet.Proofs.Net.Ending

/-!
A step at work. While a step reacts, the net around it stays alert: the step
changes nothing but its own transition, the places behind its connectors and
the records of what it has done. A reaction is fine if it ends with the step
served, or with a fault that halts the net.
-/

namespace RecipeNet

theorem Course.lore_mono {sc sc' : Scene} {events : List Event} (h : Course sc events sc')
    {t : Token} (ht : t ∈ sc.lore) : t ∈ sc'.lore :=
  h.keeps (P := fun sc => t ∈ sc.lore) (fun act hb => act.lore_mono hb) ht

/-- A step that is about to work, and what else there is to do in its net. -/
structure Station where
  scene : Scene
  i : Nat
  slot : Slot
  asleep : List Nat
  owed : List (Nat × Token)
  queue : List Engine.Notice

namespace Station

def engine (w : Station) (r : Reaction) (tr : Transition) : Engine :=
  w.scene.engine.become w.i r.holdings tr

structure Ready (fitter : Fitter) (w : Station) : Prop where
  sound : w.scene.Sound fitter
  stands : w.scene.engine.slots[w.i]? = some w.slot

/-- The step has come to some point of its work. -/
structure Underway (w : Station) (r : Reaction) (tr : Transition) (s : Supply)
    (lore : Lore) : Prop where
  step : r.step = w.slot.step
  inputs : r.inputs = w.slot.inputs
  outputs : r.outputs = w.slot.outputs
  places : r.holdings.map (·.place) = w.scene.engine.holdings.map (·.place)
  course : Course w.scene r.events ⟨w.engine r tr, s, lore⟩
  known : ∀ x ∈ r.produced, x.2 ∈ lore
  grows : ∀ x, (stock r.holdings).count x ≤
    (stock w.scene.engine.holdings).count x + (entries r.produced).count x
  alert : (w.engine r tr).Alert [w.i] w.asleep (w.owed ++ r.produced) w.queue

structure Fine (w : Station) (reacted : Reacted) : Prop where
  ok : reacted.result = .ok () → ∃ lore,
    w.Underway reacted.reaction reacted.transition reacted.supply lore ∧
    (w.engine reacted.reaction reacted.transition).Alert [] w.asleep
      (w.owed ++ reacted.reaction.produced) w.queue
  error : ∀ f, reacted.result = .error f → f.halts = true ∧ ∃ lore,
    Course w.scene reacted.reaction.events
      ⟨(w.engine reacted.reaction reacted.transition).halt f, reacted.supply, lore⟩

variable {fitter : Fitter} {w : Station} {r r' : Reaction} {tr tr' : Transition} {s s' : Supply}
  {lore lore' : Lore}

theorem Ready.apt (hf : fitter.Regular) (hw : w.Ready fitter) :
    w.slot.Apt fitter w.scene.engine.holdings.length :=
  (hw.sound.fits).slot hf (List.mem_of_getElem? hw.stands)

theorem Ready.stands_now (hw : w.Ready fitter) (r : Reaction) (tr : Transition) :
    (w.engine r tr).slots[w.i]? = some { w.slot with transition := tr } :=
  Engine.become_slot r.holdings tr hw.stands

/-- A step stays what it is, whatever its net does. -/
theorem Ready.outline_eq (hw : w.Ready fitter) {e : Engine} {events : List Event}
    (course : Course w.scene events ⟨e, s, lore⟩)
    (stands : e.slots[w.i]? = some { w.slot with transition := tr }) :
    tr.outline = w.slot.transition.outline := by
  have hnow := Engine.outline_at stands
  have hsame : e.outline = w.scene.engine.outline :=
    course.keeps (P := fun sc => sc.engine.outline = w.scene.engine.outline)
      (fun act ha => act.outline.trans ha) rfl
  rw [hsame] at hnow
  have hslots := Option.some.inj (hnow.symm.trans (Engine.outline_at hw.stands))
  exact congrArg Slot.transition hslots

theorem Underway.sees (h : w.Underway r tr s lore) :
    r.Sees (w.engine r tr) { w.slot with transition := tr } :=
  ⟨h.step, h.inputs, h.outputs, rfl⟩

theorem Underway.running (h : w.Underway r tr s lore) : (w.engine r tr).status = .running :=
  h.alert.brisk.running

theorem Underway.length (h : w.Underway r tr s lore) :
    r.holdings.length = w.scene.engine.holdings.length := by
  simpa using congrArg List.length h.places

theorem Underway.outputs_lt (hf : fitter.Regular) (hw : w.Ready fitter)
    (h : w.Underway r tr s lore) : ∀ p ∈ r.outputs, p < r.holdings.length := by
  rw [h.outputs, h.length]
  exact (hw.apt hf).outputs

theorem Ready.start (hw : w.Ready fitter)
    (alert : w.scene.engine.Alert [w.i] w.asleep w.owed w.queue) :
    w.Underway (w.scene.engine.reaction w.slot) w.slot.transition w.scene.supply
      w.scene.lore := by
  have hself : w.engine (w.scene.engine.reaction w.slot) w.slot.transition = w.scene.engine :=
    Engine.become_self hw.stands
  refine ⟨rfl, rfl, rfl, rfl, ?_, List.forall_mem_nil _, fun x => Nat.le_add_right _ _, ?_⟩
  · rw [hself]
    exact .nil w.scene
  · rw [hself]
    simpa only [Engine.reaction, List.append_nil] using alert

/-- The work goes on by some acts of the net. -/
theorem Underway.advance (h : w.Underway r tr s lore) {events : List Event}
    (made : List (Nat × Token)) (follows : r'.Follows r)
    (course : Course ⟨w.engine r tr, s, lore⟩ events ⟨w.engine r' tr', s', lore'⟩)
    (report : r'.events = r.events ++ events) (produced : r'.produced = r.produced ++ made)
    (known : ∀ x ∈ made, x.2 ∈ lore')
    (grows : ∀ x, (stock r'.holdings).count x ≤
      (stock r.holdings).count x + (entries made).count x) :
    w.Underway r' tr' s' lore' := by
  refine ⟨follows.step.trans h.step, follows.inputs.trans h.inputs,
    follows.outputs.trans h.outputs, follows.places.trans h.places, ?_, ?_, ?_, ?_⟩
  · rw [report]
    exact h.course.trans course
  · intro x hx
    rw [produced] at hx
    rcases List.mem_append.1 hx with hold | hnew
    · exact course.lore_mono (h.known x hold)
    · exact known x hnew
  · intro x
    have hbefore := h.grows x
    have hnow := grows x
    rw [produced, entries_append, Multiset.count_add]
    omega
  · have hwork := h.alert.work tr' follows.places grows
    rw [List.append_assoc, ← produced] at hwork
    simpa only [engine, Engine.become_become] using hwork

/-- A firing of the step. -/
theorem Underway.fired (hf : fitter.Regular) (hw : w.Ready fitter) (h : w.Underway r tr s lore)
    {firing : Firing} (fires : tr.Fires w.slot.step w.slot.outputs.length s firing)
    (taken : ∀ x ∈ firing.taken, x.2 ∈ lore)
    (fire : r.fire firing.taken firing.made = (r', .ok true)) :
    w.Underway { r' with events := r'.events ++ firing.notes } firing.after firing.supply
      (lore.grow w.slot.step firing.fresh firing.inner) := by
  obtain ⟨-, hfollows, hevents, removed, placed, -, hplaced, hproduced, hspread⟩ :=
    Reaction.fire_true fire (h.outputs_lt hf hw)
  have hsound := h.course.sound hf hw.sound
  have htokens : ∀ t ∈ tr.tokens, t ∈ lore :=
    hsound.informed.steps _ (List.mem_of_getElem? (hw.stands_now r tr))
  have hmade := fires.made_known htokens taken
  have hcourse : Course ⟨w.engine r tr, s, lore⟩ (.fired (.ofStep w.slot.step) :: firing.notes)
      ⟨w.engine r' firing.after, firing.supply,
        lore.grow w.slot.step firing.fresh firing.inner⟩ := by
    have act : Act ⟨w.engine r tr, s, lore⟩ _ _ :=
      .fired h.running (hw.stands_now r tr) fires taken h.sees fire
    simpa only [engine, Engine.become_become] using Course.of_act act
  refine h.advance placed ⟨hfollows.step, hfollows.inputs, hfollows.outputs, hfollows.places⟩
    hcourse ?_ hproduced ?_ ?_
  · rw [hevents, List.append_assoc, h.step]
    rfl
  · intro x hx
    obtain ⟨m, hm, -, heq⟩ := exists_left_of_forall₂ hplaced hx
    rw [heq]
    exact Lore.mem_grow.2 (hmade m hm)
  · intro x
    have hcount := congrArg (Multiset.count x) (stock_of_spread hspread)
    rw [Multiset.count_add, Multiset.count_add] at hcount
    change (stock r'.holdings).count x ≤ _
    omega

/-- The work is done when the step is served and the net that it runs is awake. -/
theorem Underway.fine (hw : w.Ready fitter) (h : w.Underway r tr s lore)
    (served : tr.eager = true → ∀ k p, w.slot.inputs[k]? = some p → ∀ id,
      (stock r.holdings).count (p, id) ≤
        (marks w.queue).count (w.i, k, id) + (entries (w.owed ++ r.produced)).count (p, id))
    (nested : ∀ nest t child, tr = .busy nest t child →
      if w.i ∈ w.asleep then child.Asleep else child.Awake) : w.Fine ⟨r, tr, s, .ok ()⟩ := by
  refine ⟨fun _ => ⟨lore, h, ?_⟩, fun f hf => by cases hf⟩
  exact h.alert.finish (hw.stands_now r tr) served nested

variable {k : Nat} {t : Token}

/-- A step that changes nothing has no use for the token of the notice. -/
theorem Ready.fine_idle (hw : w.Ready fitter)
    (calm : w.scene.engine.Alert [] w.asleep w.owed (⟨w.i, k, t⟩ :: w.queue))
    (unheld : w.slot.transition.eager = true →
      (w.scene.engine.reaction w.slot).holds k t = false) :
    w.Fine ⟨w.scene.engine.reaction w.slot, w.slot.transition, w.scene.supply, .ok ()⟩ := by
  refine (hw.start calm.attend).fine hw ?_ fun nest u child hbusy =>
    calm.nested w.i w.slot nest u child List.not_mem_nil hw.stands hbusy
  intro heager k' p hk id
  have hserved := calm.brisk.served w.i w.slot List.not_mem_nil hw.stands heager k' p hk id
  rw [marks_cons] at hserved
  change (stock w.scene.engine.holdings).count (p, id) ≤ _
  simp only [Engine.reaction, List.append_nil]
  by_cases hsame : (w.i, k', id) = (w.i, k, t.id)
  · obtain ⟨-, rfl, rfl⟩ : w.i = w.i ∧ k' = k ∧ id = t.id := by simpa using hsame
    have hnone : (stock w.scene.engine.holdings).count (p, t.id) = 0 := by
      refine Multiset.count_eq_zero.2 fun hmem => ?_
      obtain ⟨h, hat, u, hu, hid⟩ := mem_stock.1 hmem
      have hholds : (w.scene.engine.reaction w.slot).holds k' t = true :=
        Reaction.holds_iff.2 ⟨p, h, hk, hat, Holding.holds_iff.2 ⟨u, hu, hid⟩⟩
      rw [unheld heager] at hholds
      cases hholds
    omega
  · rw [Multiset.count_cons_of_ne hsame] at hserved
    exact hserved

/-- What a notice says of an eager step is settled when the step has taken the
token. -/
theorem Ready.served_single (hw : w.Ready fitter)
    (calm : w.scene.engine.Alert [] w.asleep w.owed (⟨w.i, k, t⟩ :: w.queue))
    (heager : w.slot.transition.eager = true) {hs : List Holding} {q : Nat} {u : Token}
    {placed : List (Nat × Token)} (hq : w.slot.inputs[k]? = some q) (hu : u.id = t.id)
    (moved : stock hs + entries [(q, u)] = stock w.scene.engine.holdings + entries placed)
    {k' p : Nat} (hk : w.slot.inputs[k']? = some p) (id : TokenId) :
    (stock hs).count (p, id) ≤
      (marks w.queue).count (w.i, k', id) + (entries (w.owed ++ placed)).count (p, id) := by
  have hserved := calm.brisk.served w.i w.slot List.not_mem_nil hw.stands heager k' p hk id
  have hcount := congrArg (Multiset.count (p, id)) moved
  have htaken : entries [(q, u)] = {(q, u.id)} := rfl
  rw [Multiset.count_add, Multiset.count_add, htaken] at hcount
  rw [marks_cons] at hserved
  rw [entries_append, Multiset.count_add]
  by_cases hsame : (w.i, k', id) = (w.i, k, t.id)
  · obtain ⟨-, rfl, rfl⟩ : w.i = w.i ∧ k' = k ∧ id = t.id := by simpa using hsame
    obtain rfl : q = p := Option.some.inj (hq.symm.trans hk)
    rw [Multiset.count_cons_self] at hserved
    rw [hu, Multiset.count_singleton_self] at hcount
    omega
  · rw [Multiset.count_cons_of_ne hsame] at hserved
    omega

/-- An eager step that fires with the token of the notice is served. -/
theorem Ready.fine_fired (hf : fitter.Regular) (hw : w.Ready fitter)
    (calm : w.scene.engine.Alert [] w.asleep w.owed (⟨w.i, k, t⟩ :: w.queue))
    (heager : w.slot.transition.eager = true) {firing : Firing}
    (fires : w.slot.transition.Fires w.slot.step w.slot.outputs.length w.scene.supply firing)
    (taken : firing.taken = [(k, t)]) (known : t ∈ w.scene.lore)
    (held : (w.scene.engine.reaction w.slot).holds k t = true)
    (targets : ∀ e ∈ firing.made, ∃ place, w.slot.outputs[e.1]? = some place)
    (vacant : ∀ nest u child, firing.after ≠ .busy nest u child) :
    ∃ r', (w.scene.engine.reaction w.slot).fire [(k, t)] firing.made = (r', .ok true) ∧
      w.Fine ⟨{ r' with events := r'.events ++ firing.notes }, firing.after, firing.supply,
        .ok ()⟩ := by
  obtain ⟨r', hfire⟩ := Reaction.fire_single held targets
  have hstart := hw.start calm.attend
  have hfired := hstart.fired hf hw fires
    (by rw [taken]; exact List.forall_mem_singleton.2 known) (by rw [taken]; exact hfire)
  refine ⟨r', hfire, hfired.fine hw (fun _ k' p hk id => ?_) fun nest u child hbusy =>
    absurd hbusy (vacant nest u child)⟩
  obtain ⟨-, -, -, removed, placed, hremoved, -, hproduced, hspread⟩ :=
    Reaction.fire_true hfire (hstart.outputs_lt hf hw)
  obtain ⟨⟨q, u⟩, hrest, ⟨hq, hu⟩, hnil, rfl⟩ := List.forall₂_cons_left_iff.1 hremoved
  obtain rfl := List.forall₂_nil_left_iff.1 hnil
  have hplaced : r'.produced = placed := hproduced
  rw [hplaced]
  exact hw.served_single calm heager hq hu (stock_of_spread hspread) hk id

end Station
end RecipeNet
