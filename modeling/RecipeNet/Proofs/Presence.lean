import RecipeNet.Proofs.Net.Seats
import RecipeNet.Proofs.Sharing

/-!
Whether those who sit in a join are there. A join notes the siblings that have come
and is not told when another step takes one of them away. If no other step reads
the places that a join reads, whoever sits in the join is still behind its input.
-/

namespace RecipeNet

/-- No other step of a plan reads a place that one of its joins reads. -/
def Plan.Reserved (plan : Plan) : Prop :=
  ∀ j ∈ plan.steps, j.kind = .join → ∀ s ∈ plan.steps, s.id ≠ j.id → ∀ p ∈ s.inputs, p ∉ j.inputs

instance (plan : Plan) : Decidable plan.Reserved :=
  inferInstanceAs (Decidable (∀ j ∈ plan.steps, j.kind = .join → ∀ s ∈ plan.steps, s.id ≠ j.id →
    ∀ p ∈ s.inputs, p ∉ j.inputs))

theorem stock_le_add (hs : List Holding) (p : Nat) (t : Token) :
    stock hs ≤ stock (hs.modify p (·.add t)) := by
  by_cases hp : p < hs.length
  · unfold stock
    rw [spread_add t hp, Multiset.map_cons]
    exact Multiset.le_cons_self _ _
  · rw [List.modify_eq_self (Nat.le_of_not_lt hp)]

theorem Slot.Hushes.sitters {now : Timestamp} {slot slot' : Slot} (h : slot.Hushes now slot') :
    slot'.sitters = slot.sitters := by
  cases h with
  | same => rfl
  | hushed =>
    obtain ⟨step, inputs, outputs, phase, tr⟩ := slot
    cases tr <;> rfl

namespace Engine

variable {fitter : Fitter} {plan : Plan} {e : Engine} {events : List Event} {i : Nat}
  {slot : Slot}

theorem placeIndex?_inj {hs : List Holding} {id id' : String} (h : placeIndex? hs id = some i)
    (h' : placeIndex? hs id' = some i) : id = id' := by
  obtain ⟨_, hid, -⟩ := List.findIdx?_eq_some_iff_getElem.1 h
  obtain ⟨_, hid', -⟩ := List.findIdx?_eq_some_iff_getElem.1 h'
  exact (beq_iff_eq.1 hid).symm.trans (beq_iff_eq.1 hid')

/-- No other step of a net reads a place that a join reads, if that holds of its plan. -/
theorem Fits.reserved (hf : fitter.Regular) (h : e.Fits fitter) (hplan : e.plan.Reserved)
    {j inputs : Nat} {other : Slot} {pending : List Generation} (hi : e.slots[i]? = some slot)
    (join : slot.transition = .join inputs pending) (hj : e.slots[j]? = some other) (hne : j ≠ i) :
    ∀ p ∈ other.inputs, p ∉ slot.inputs := by
  obtain ⟨taker, htaker, hins, -, -, hkind⟩ := h.origin hf (Engine.outline_at hi)
  obtain ⟨step, hstep, hins', -⟩ := h.origin hf (Engine.outline_at hj)
  have hjoin : slot.outline.transition.outline = .join inputs [] := by
    change slot.transition.outline.outline = _
    rw [join]
    rfl
  have hdistinct := (Plan.sound_of_flaws (built_of_build h.1).sound).distinctSteps
  have hids : step.id ≠ taker.id := by
    obtain ⟨hlt, rfl⟩ := List.getElem?_eq_some_iff.1 htaker
    obtain ⟨hlt', rfl⟩ := List.getElem?_eq_some_iff.1 hstep
    intro heq
    have hi' : i < (e.plan.steps.map (·.id)).length := by rwa [List.length_map]
    have hj' : j < (e.plan.steps.map (·.id)).length := by rwa [List.length_map]
    have hsame : (e.plan.steps.map (·.id))[j] = (e.plan.steps.map (·.id))[i] := by
      rw [List.getElem_map, List.getElem_map]
      exact heq
    exact hne (hdistinct.getElem_inj_iff.1 hsame)
  intro p hp hp'
  obtain ⟨id, hid, hat⟩ := exists_left_of_forall₂ (placeIndices_ok hins') hp
  obtain ⟨id', hid', hat'⟩ := exists_left_of_forall₂ (placeIndices_ok hins) hp'
  obtain rfl := placeIndex?_inj hat hat'
  exact hplan taker (List.mem_of_getElem? htaker) (hkind inputs hjoin) step
    (List.mem_of_getElem? hstep) hids id hid hid'

/-- Whoever sits in a join is behind its input. -/
def Current (e : Engine) : Prop := ∀ slot ∈ e.slots, slot.sitters ≤ stock e.holdings

theorem Current.holds (h : e.Current) (hs : slot ∈ e.slots) {inputs : Nat}
    {pending : List Generation} (join : slot.transition = .join inputs pending) {g : Generation}
    (hg : g ∈ pending) (full : g.Full slot.inputs.length) {k : Nat} {t : Token}
    (ht : (k, t) ∈ g.siblings) : (e.reaction slot).holds k t = true := by
  obtain ⟨hlt, -⟩ := List.getElem?_eq_some_iff.1 (Generation.mem_siblings.1 ht)
  rw [show g.slots.length = slot.inputs.length from full] at hlt
  obtain ⟨p, hp⟩ : ∃ p, slot.inputs[k]? = some p := ⟨_, List.getElem?_eq_getElem hlt⟩
  have hsits : (p, t.id) ∈ slot.sitters := by
    rw [Slot.sitters_join join]
    exact Join.mem_sitters.2 ⟨g, hg, Generation.mem_sitters.2 ⟨k, t, ht, hp, rfl⟩⟩
  obtain ⟨hold, hat, u, hu, hid⟩ := mem_stock.1 (Multiset.mem_of_le (h slot hs) hsits)
  exact Reaction.holds_iff.2 ⟨p, hold, hp, hat, Holding.holds_iff.2 ⟨u, hu, hid⟩⟩

/-- A step keeps those who sit in joins where they are if it takes no token from
behind the inputs of another join, and none that sits in itself. -/
theorem Current.become (h : e.Current) {hs : List Holding} {tr : Transition}
    (hi : e.slots[i]? = some slot)
    (others : ∀ j other, e.slots[j]? = some other → j ≠ i → ∀ x ∈ other.sitters,
      (stock e.holdings).count x ≤ (stock hs).count x)
    (own : ({ slot with transition := tr } : Slot).sitters ≤ stock hs) :
    (e.become i hs tr).Current := by
  intro new hnew
  change new.sitters ≤ stock hs
  obtain ⟨j, hj⟩ := List.mem_iff_getElem?.1 hnew
  by_cases hij : i = j
  · subst hij
    obtain rfl := Option.some.inj ((become_slot hs tr hi).symm.trans hj)
    exact own
  · rw [become_slot_ne hs tr hij] at hj
    refine Multiset.le_iff_count.2 fun x => ?_
    by_cases hx : x ∈ new.sitters
    · exact (Multiset.count_le_of_le x (h new (List.mem_of_getElem? hj))).trans
        (others j new hj (Ne.symm hij) x hx)
    · rw [Multiset.count_eq_zero_of_notMem hx]
      exact Nat.zero_le _

/-- A step that only puts tokens into places. -/
theorem Current.grow (h : e.Current) {hs : List Holding} {tr : Transition}
    (hi : e.slots[i]? = some slot) (grows : stock e.holdings ≤ stock hs)
    (other : ∀ inputs pending, tr ≠ .join inputs pending) : (e.become i hs tr).Current := by
  refine h.become hi (fun _ _ _ _ x _ => Multiset.count_le_of_le x grows) ?_
  rw [Slot.sitters_other other]
  exact Multiset.zero_le _

theorem Current.halt (h : e.Current) (f : Fault) : (e.halt f).Current := by
  intro slot hs
  rw [slots_halt] at hs
  rw [holdings_halt]
  exact h slot hs

end Engine

namespace Act

variable {fitter : Fitter} {last : Supply} {sc sc' : Scene} {events : List Event}

/-- A firing leaves those who still sit in joins where they are. -/
theorem current_fired (hf : fitter.Regular) (hsc : sc.Straight fitter last)
    (hplan : sc.engine.plan.Reserved) (hcur : sc.engine.Current) {i : Nat} {slot : Slot}
    {firing : Firing} {r r' : Reaction} (stands : sc.engine.slots[i]? = some slot)
    (fires : slot.transition.Fires slot.step slot.outputs.length sc.supply firing)
    (sees : r.Sees sc.engine slot) (fire : r.fire firing.taken firing.made = (r', .ok true)) :
    (sc.engine.become i r'.holdings firing.after).Current := by
  have hmem := List.mem_of_getElem? stands
  have hapt := hsc.sound.fits.slot hf hmem
  obtain ⟨-, -, -, removed, placed, hremoved, -, -, hspread⟩ := Reaction.fire_true fire (by
    rw [sees.outputs, sees.holdings]
    exact hapt.outputs)
  have hstock := stock_of_spread hspread
  rw [sees.holdings] at hstock
  rw [sees.inputs] at hremoved
  have hcount : ∀ x, (stock r'.holdings).count x + (entries removed).count x =
      (stock sc.engine.holdings).count x + (entries placed).count x := by
    intro x
    rw [← Multiset.count_add, hstock, Multiset.count_add]
  refine hcur.become stands (fun j other hj hne x hx => ?_) ?_
  · have hnone : (entries removed).count x = 0 := by
      refine Multiset.count_eq_zero.2 fun hx' => ?_
      obtain ⟨u, hu, rfl⟩ := List.mem_map.1 (Multiset.mem_coe.1 hx')
      obtain ⟨y, -, hplace, -⟩ := exists_left_of_forall₂ hremoved hu
      cases hother : other.transition with
      | join ins pending =>
        exact hsc.sound.fits.reserved hf hplan hj hother stands (Ne.symm hne) _
          (List.mem_of_getElem? hplace) (Slot.sitters_inputs hx)
      | _ =>
        rw [Slot.sitters_other (by rw [hother]; nofun)] at hx
        exact absurd hx (Multiset.notMem_zero _)
    have := hcount x
    omega
  · refine Multiset.le_iff_count.2 fun x => ?_
    have hold := Multiset.count_le_of_le x (hcur slot hmem)
    have hnow := hcount x
    generalize htr : slot.transition = tr at fires
    cases fires with
    | join ins pending j g isPending =>
      rw [Generation.sitters_removed hremoved] at hnow
      rw [Slot.sitters_join htr, Join.sitters_eraseIdx isPending, Multiset.count_add] at hold
      change (Join.sitters slot.inputs (pending.eraseIdx j)).count x ≤ _
      omega
    | _ => exact Nat.zero_le _

/-- A token that takes a seat is there. -/
theorem current_seated (hsc : sc.Straight fitter last)
    (hpart : sc.engine.Joins fun _ => Join.Parted) (hcur : sc.engine.Current) {i : Nat}
    {slot : Slot} {inputs : Nat} {pending placed : List Generation} {t parent : Token}
    {g : Generation} {j k : Nat} (stands : sc.engine.slots[i]? = some slot)
    (join : slot.transition = .join inputs pending) (known : t ∈ sc.lore)
    (isSplit : t.parent = some parent) (holds : (sc.engine.reaction slot).holds k t = true)
    (located : Join.locate pending parent slot.inputs.length = (placed, j))
    (isPlaced : placed[j]? = some g) (unseen : g.buffers t = false)
    (free : g.slots[k]? = some none) :
    (sc.engine.become i sc.engine.holdings
      (.join inputs (placed.set j { g with slots := g.slots.set k (some t) }))).Current := by
  have hmem := List.mem_of_getElem? stands
  obtain ⟨p, hold, hp, hat, hholds⟩ := Reaction.holds_iff.1 holds
  refine hcur.become stands (fun _ _ _ _ x _ => le_rfl) (Multiset.le_iff_count.2 fun x => ?_)
  have hnow : ({ slot with transition := .join inputs (placed.set j
      { g with slots := g.slots.set k (some t) }) } : Slot).sitters =
      (p, t.id) ::ₘ slot.sitters := by
    rw [Slot.sitters_join rfl, Slot.sitters_join join]
    exact Join.sitters_seated located isPlaced free hp
  have hold := Multiset.count_le_of_le x (hcur slot hmem)
  rw [hnow, Multiset.count_cons]
  by_cases hx : x = (p, t.id)
  · have hnone : slot.sitters.count x = 0 := by
      rw [hx, Slot.sitters_join join]
      refine Multiset.count_eq_zero.2 (Join.not_sitting (hpart slot hmem _ _ join)
        (fun g hg => (hsc.orderly slot hmem _ _ join g hg).2) (fun g hg u hu hid => ?_) located
        isPlaced isSplit unseen p)
      refine hsc.clear.coherent [] u ?_ t known hid
      refine hsc.sound.informed.steps slot hmem u ?_
      rw [join]
      exact List.mem_flatMap.2 ⟨g, hg, List.mem_cons_of_mem _ hu⟩
    have hthere : x ∈ stock sc.engine.holdings := by
      obtain ⟨u, hu, hid⟩ := Holding.holds_iff.1 hholds
      rw [hx]
      exact mem_stock.2 ⟨_, hat, u, hu, hid⟩
    have hone := Multiset.one_le_count_iff_mem.2 hthere
    rw [if_pos hx]
    omega
  · rw [if_neg hx]
    omega

/-- If no other step reads the places of a join, those who sit in it stay there. -/
theorem current (hf : fitter.Regular) (h : Act sc events sc') (hsc : sc.Straight fitter last)
    (hpart : sc.engine.Joins fun _ => Join.Parted) (hplan : sc.engine.plan.Reserved)
    (hcur : sc.engine.Current) : sc'.engine.Current := by
  cases h with
  | woken =>
    intro slot hs
    obtain ⟨old, hold, rfl⟩ := List.mem_map.1 hs
    exact hcur old hold
  | fired _ stands fires _ sees fire => exact current_fired hf hsc hplan hcur stands fires sees fire
  | seated _ stands join known isSplit _ holds located isPlaced unseen free =>
    exact current_seated hsc hpart hcur stands join known isSplit holds located isPlaced unseen free
  | @refreshed _ _ slot inputs pending g j _ stands join isPending stale =>
    have hmem := List.mem_of_getElem? stands
    have hg := List.mem_of_getElem? isPending
    obtain ⟨⟨k, t⟩, ht, hgone⟩ := stale
    have hfull := (hsc.orderly slot hmem _ _ join g hg).1.1
    have hsuits := (hsc.sound.fits.slot hf hmem).suits
    rw [join] at hsuits
    rw [hsuits.1] at hfull
    rw [hcur.holds hmem join hg hfull ht] at hgone
    cases hgone
  | @botched _ _ slot _ _ g _ _ _ _ _ stands join isPending consume held =>
    have hseats := hsc.orderly slot (List.mem_of_getElem? stands) _ _ join g
      (List.mem_of_getElem? isPending)
    have hok := hseats.1.2.consume held
    rw [consume] at hok
    cases hok
  | refused => exact hcur.halt _
  | balked _ stands =>
    exact Engine.Current.halt (hcur.grow stands le_rfl fun _ _ htr => by cases htr) _
  | released _ stands => exact hcur.grow stands (stock_le_add _ _ _) nofun
  | closed _ stands => exact hcur.grow stands (stock_le_add _ _ _) nofun
  | announced => exact hcur
  | ended => exact hcur
  | inside _ stands => exact hcur.grow stands le_rfl nofun
  | sunk => exact hcur.halt _

end Act

namespace Engine

structure Kempt (e : Engine) : Prop where
  parted : e.Joins fun _ => Join.Parted
  current : e.plan.Reserved → e.Current

theorem Built.kempt {fitter : Fitter} {plan : Plan} {e : Engine} (h : Built fitter plan e) :
    e.Kempt := by
  refine ⟨h.joins fun _ => List.nodup_nil, fun _ slot hs => ?_⟩
  cases htr : slot.transition with
  | join inputs pending =>
    obtain rfl : pending = [] := h.joins (P := fun _ pending => pending = []) (fun _ => rfl) slot hs
      inputs pending htr
    rw [Slot.sitters_join htr]
    exact Multiset.zero_le _
  | _ =>
    rw [Slot.sitters_other (by rw [htr]; nofun)]
    exact Multiset.zero_le _

theorem Built.entered_kempt {fitter : Fitter} {plan : Plan} {e : Engine} (h : Built fitter plan e)
    (t : Token) : (e.entered t).Kempt := by
  refine ⟨h.entered_joins (P := fun _ => Join.Parted) (fun _ => List.nodup_nil) t,
    fun hplan slot hs => ?_⟩
  obtain ⟨old, hold, rfl⟩ := List.mem_map.1 hs
  exact (h.kempt.current hplan old hold).trans (stock_le_add _ _ _)

theorem Kempt.hushes {e : Engine} (h : e.Kempt) {now : Timestamp} {slots : List Slot}
    (hslots : List.Forall₂ (Slot.Hushes now) e.slots slots) (next : Status) :
    Engine.Kempt { e with status := next, slots } := by
  refine ⟨fun slot hs inputs pending htr => ?_, fun hplan slot hs => ?_⟩
  · obtain ⟨old, hold, hhush⟩ := exists_left_of_forall₂ hslots hs
    exact h.parted old hold inputs pending (hhush.join htr)
  · obtain ⟨old, hold, hhush⟩ := exists_left_of_forall₂ hslots hs
    rw [hhush.sitters]
    exact h.current hplan old hold

end Engine

structure Scene.Tidy (fitter : Fitter) (last : Supply) (sc : Scene) : Prop where
  steadfast : sc.Steadfast fitter last
  chronicled : sc.engine.Throughout fun e => ∃ past, e.Chronicled past
  kempt : sc.engine.Throughout Engine.Kempt

namespace Scene.Tidy

variable {fitter : Fitter} {last : Supply} {sc sc' : Scene} {events : List Event}

theorem child (h : sc.Tidy fitter last) {slot : Slot} (hs : slot ∈ sc.engine.slots)
    {nest : Nest} {t : Token} {child : Engine} (ht : slot.transition = .busy nest t child) :
    (sc.nested slot child).Tidy fitter last :=
  ⟨h.steadfast.child hs ht, h.chronicled.child hs ht, h.kempt.child hs ht⟩

/-- In a net whose plan gathers, what is held is held once. -/
theorem exclusive (hf : fitter.Regular) (h : sc.Tidy fitter last) (hplan : sc.engine.plan.Gathers) :
    sc.engine.Exclusive := by
  obtain ⟨past, hpast⟩ := h.chronicled.here
  have hsound := h.steadfast.sound
  exact Engine.exclusive_of_nodup (h.steadfast.clear.coherent.anti (Engine.lore_le hsound))
    ((hsound.fits.gathers hf hplan).nodup hpast)

end Scene.Tidy

/-- Whatever a net does, its joins can still be relied on. -/
theorem Act.kempt {fitter : Fitter} {last : Supply} {sc sc' : Scene} {events : List Event}
    (hf : fitter.Regular) (h : Act sc events sc') (hsc : sc.Straight fitter last)
    (hkempt : sc.engine.Kempt) : sc'.engine.Kempt := by
  refine ⟨h.joins Join.parted_lasting hf hsc.sound.fits hkempt.parted, fun hplan => ?_⟩
  rw [h.plan_eq] at hplan
  exact h.current hf hsc hkempt.parted hplan (hkempt.current hplan)

theorem Course.tidy {fitter : Fitter} {last : Supply} {sc sc' : Scene} {events : List Event}
    (hf : fitter.Regular) (h : Course sc events sc') (hle : sc'.supply.used ≤ last.used)
    (hsc : sc.Tidy fitter last) : sc'.Tidy fitter last :=
  ⟨h.steadfast hf hle hsc.steadfast, h.chronicles hf hle hsc.steadfast hsc.chronicled,
    h.throughout hf (fun act _ hsc ha => act.kempt hf hsc.straight ha.here)
      (fun hb t => hb.entered_kempt t) hle hsc.steadfast hsc.kempt⟩

namespace Engine

variable {fitter : Fitter} {plan : Plan} {e : Engine} {events : List Event}

/-- What a call sets to work is tidy until the call is answered. -/
theorem Raised.tidy_opened (hf : fitter.Regular) (h : Raised fitter plan events e)
    (hkempt : e.Throughout Kempt) {s last : Supply} {call : Call}
    (starts : ∀ t, call = .start t → t.Proper)
    (fits : (e.opened call).Throughout (Fits fitter))
    (fresh : Supply.Fresh (e.opened call).Mentions s last) :
    Scene.Tidy fitter last ⟨e.opened call, s, (e.opened call).lore⟩ := by
  have hsteady := h.reachable.steady hf
  refine ⟨h.steadfast hf starts fits fresh, ?_, ?_⟩
  · exact hsteady.opened (h.chronicled hf).2
      (fun hbuild t => ⟨_, (built_of_build hbuild).entered_chronicled [] .nil t⟩) call
  · exact hsteady.opened hkempt (fun hbuild t => (built_of_build hbuild).entered_kempt t) call

theorem Raised.kempt (hf : fitter.Regular) (h : Raised fitter plan events e) :
    e.Throughout Kempt := by
  induction h with
  | built build =>
    have hb := built_of_build build
    exact .intro hb.kempt fun slot hs nest t child ht => absurd ht (hb.vacant hs nest t child)
  | called before starts answers fresh ih =>
    rcases (before.reachable.steady hf).answer hf answers with ⟨f, -, rfl⟩ | ⟨hopens, hproper⟩
    · exact ih
    · obtain ⟨lore, hcourse⟩ := hproper.course
      exact (hcourse.tidy hf le_rfl (before.tidy_opened hf ih starts hopens.fits fresh)).kempt
  | paused _ now ih => exact pause_keeps ih now fun _ next _ hslots he => he.hushes hslots next

theorem Raised.tidy (hf : fitter.Regular) (h : Raised fitter plan events e) {s last : Supply}
    {call : Call} (starts : ∀ t, call = .start t → t.Proper)
    (fits : (e.opened call).Throughout (Fits fitter))
    (fresh : Supply.Fresh (e.opened call).Mentions s last) :
    Scene.Tidy fitter last ⟨e.opened call, s, (e.opened call).lore⟩ :=
  h.tidy_opened hf (h.kempt hf) starts fits fresh

inductive Somewhere (P : Engine → Prop) : Engine → Prop
  | here {e : Engine} (holds : P e) : Somewhere P e
  | inside {e : Engine} {slot : Slot} {nest : Nest} {t : Token} {child : Engine}
      (stands : slot ∈ e.slots) (busy : slot.transition = .busy nest t child)
      (within : Somewhere P child) : Somewhere P e

/-- In a step of some name, a token of some identity has the seat of an input. If no
other step reads the places of joins, it is in the place behind that input. -/
def Taken (step : String) (input : Nat) (id parent : TokenId) (e : Engine) : Prop :=
  ∃ slot ∈ e.slots, slot.step = step ∧ ∃ inputs pending g t,
    slot.transition = .join inputs pending ∧ g ∈ pending ∧ g.parent.id = parent ∧
    (input, t) ∈ g.siblings ∧ t.id = id ∧
    (e.plan.Reserved → (e.reaction slot).holds input t = true)

/-- A net that has not halted, or that has halted for a reason that is true. -/
structure Truthful (e : Engine) : Prop where
  live : e.status = .running ∨ e.status = .paused → e.haltedBy = none
  taken : ∀ step id input held parent,
    e.haltedBy = some (.unexpectedToken step id (.taken input held parent)) →
      e.Somewhere (Taken step input held parent)

theorem truthful_of_silent (h : e.haltedBy = none) : e.Truthful :=
  ⟨fun _ => h, fun _ _ _ _ _ htaken => by rw [h] at htaken; cases htaken⟩

/-- A net that halts does so truthfully if the reason is true. -/
theorem truthful_halt {f : Fault} (running : e.status = .running) (hf : f.halts = true)
    (taken : ∀ step id input held parent,
      f = .unexpectedToken step id (.taken input held parent) →
        (e.halt f).Somewhere (Taken step input held parent)) : (e.halt f).Truthful := by
  obtain ⟨hstatus, hcause⟩ := status_halt hf running
  refine ⟨fun hlive => ?_, fun step id input held parent htaken => ?_⟩
  · rw [hstatus] at hlive
    rcases hlive with hlive | hlive <;> cases hlive
  · exact taken step id input held parent (Option.some.inj (hcause.symm.trans htaken))

end Engine

/-- Whatever a net halts for is true. -/
theorem Act.truthful {fitter : Fitter} {last : Supply} {sc sc' : Scene} {events : List Event}
    (hf : fitter.Regular) (h : Act sc events sc') (hsc : sc.Straight fitter last)
    (hkempt : sc.engine.Kempt) (hall : sc.Throughout fun sc => sc.engine.Truthful) :
    sc'.engine.Truthful := by
  have here : sc.engine.Truthful := hall.here
  cases h with
  | woken paused => exact Engine.truthful_of_silent (here.live (.inr paused))
  | fired running | seated running | refreshed running | released running | closed running
  | announced running | ended running | inside running =>
    exact Engine.truthful_of_silent (here.live (.inl running))
  | botched running | balked running =>
    dsimp only
    refine Engine.truthful_halt ?_ ?_ ?_
    exacts [running, rfl, nofun]
  | @refused _ i slot inputs pending t k reason running stands join known holds refuses =>
    have hhalts : (Fault.unexpectedToken slot.step t.id reason).halts = true := rfl
    refine Engine.truthful_halt running hhalts fun step id input held parent htaken => ?_
    cases refuses with
    | whole => cases htaken
    | narrow => cases htaken
    | taken parent j g sitting isSplit located isPending occupied =>
      cases htaken
      have hmem := List.mem_of_getElem? stands
      have hg := List.mem_of_getElem? isPending
      have hsits := Generation.mem_siblings.2 occupied
      refine .here ⟨slot, by rwa [Engine.slots_halt], rfl, inputs, pending, g, sitting, join, hg, rfl,
        hsits, rfl, fun hplan => ?_⟩
      have hsuits := (hsc.sound.fits.slot hf hmem).suits
      rw [join] at hsuits
      have hfull := (hsc.orderly slot hmem _ _ join g hg).1.1
      rw [hsuits.1] at hfull
      rw [Engine.reaction, Engine.holdings_halt]
      exact (hkempt.current hplan).holds hmem join hg hfull hsits
  | @sunk _ _ slot _ _ child f running stands busy halted halts =>
    refine Engine.truthful_halt running halts fun step id input held parent htaken => ?_
    have hmem := List.mem_of_getElem? stands
    have hchild : child.Truthful := (hall.child hmem busy).here
    exact .inside (by rwa [Engine.slots_halt]) busy
      (hchild.taken step id input held parent (halted.trans (congrArg some htaken)))

namespace Engine

variable {fitter : Fitter} {plan : Plan} {e : Engine} {events : List Event}

theorem Built.entered_truthful (h : Built fitter plan e) (t : Token) : (e.entered t).Truthful :=
  truthful_of_silent h.haltedBy

/-- A call that a join ends because of a seat that is taken: the token that is named
has that seat, and it is behind the input if no other step reads the place. -/
theorem Raised.seat_taken (hf : fitter.Regular) (h : Raised fitter plan events e) {fuel : Nat}
    {s : Supply} {call : Call} {run : Run} (starts : ∀ t, call = .start t → t.Proper)
    (answers : e.answer fuel s call = some run)
    (fresh : Supply.Fresh (e.opened call).Mentions s run.supply) {step : String}
    {id held parent : TokenId} {input : Nat}
    (refused : run.result = .error (.unexpectedToken step id (.taken input held parent))) :
    run.engine.Somewhere (Taken step input held parent) := by
  rcases (h.reachable.steady hf).answer hf answers with ⟨f, hrefusal, rfl⟩ | ⟨hopens, hproper⟩
  · obtain rfl := Except.error.inj refused
    cases hrefusal with
    | complete _ _ _ _ caller => cases caller
  · obtain ⟨lore, hcourse⟩ := hproper.course
    have htidy := h.tidy hf starts hopens.fits fresh
    have hsilent : (e.opened call).Throughout Truthful :=
      hopens.ongoing.imp fun e he => truthful_of_silent he.haltedBy
    have htruthful := hcourse.throughout (P := fun e => e.Kempt ∧ e.Truthful) hf
      (fun act _ hsc ha => ⟨act.kempt hf hsc.straight ha.here.1,
        act.truthful hf hsc.straight ha.here.1 (ha.imp fun _ he => he.2)⟩)
      (fun hb t => ⟨hb.entered_kempt t, hb.entered_truthful t⟩) le_rfl htidy.steadfast
      (htidy.kempt.and hsilent)
    exact htruthful.here.2.taken step id input held parent (hproper.error _ refused).2.2

end Engine
end RecipeNet
