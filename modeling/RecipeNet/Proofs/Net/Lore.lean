import RecipeNet.Proofs.Net.Course

/-!
The lore of a scene goes on naming every token that is in the net or in a net
within it, and with each token the one that it was split from.
-/

namespace RecipeNet

/-- A lore that names the token from which a token was split. -/
def Lore.Closed (lore : Lore) : Prop :=
  ∀ path, ∀ t ∈ lore path, ∀ parent, t.parent = some parent → parent ∈ lore path

namespace Lore.Closed

variable {lore inner : Lore} {step : String} {fresh : List Token}

theorem below (h : lore.Closed) (step : String) : (lore.below step).Closed :=
  fun path => h (step :: path)

theorem grow (h : lore.Closed) {new : List Token}
    (hfresh : ∀ t ∈ fresh, ∀ parent, t.parent = some parent → parent ∈ lore)
    (hnew : ∀ t ∈ new, t.parent = none) : (lore.grow step fresh new).Closed := by
  intro path t ht parent hparent
  rcases ht with hold | ⟨rfl, hmem⟩ | ⟨-, hmem⟩
  · exact .inl (h path t hold parent hparent)
  · exact .inl (hfresh t hmem parent hparent)
  · rw [hnew t hmem] at hparent
    cases hparent

theorem graft (h : lore.Closed) (hinner : inner.Closed) : (lore.graft step inner).Closed := by
  intro path
  cases path with
  | nil => exact h []
  | cons head path =>
    have hpath : lore.graft step inner (head :: path) =
        if head = step then inner path else lore (head :: path) := rfl
    rw [hpath]
    by_cases hhead : head = step
    · rw [if_pos hhead]
      exact hinner path
    · rw [if_neg hhead]
      exact h (head :: path)

end Lore.Closed

/-- The lore names every token that is in the net itself. -/
structure Scene.Informed (sc : Scene) : Prop where
  places : ∀ h ∈ sc.engine.holdings, ∀ t ∈ h.tokens, t ∈ sc.lore
  steps : ∀ slot ∈ sc.engine.slots, ∀ t ∈ slot.transition.tokens, t ∈ sc.lore

theorem Scene.Informed.spread {sc : Scene} (h : sc.Informed) {x : Nat × Token}
    (hx : x ∈ spread Holding.tokens sc.engine.holdings) : x.2 ∈ sc.lore := by
  obtain ⟨hold, hat, ht⟩ := mem_spread.1 hx
  exact h.places hold (List.mem_of_getElem? hat) x.2 ht

theorem Scene.informed_of_spread {e : Engine} {s : Supply} {lore : Lore}
    (places : ∀ x ∈ RecipeNet.spread Holding.tokens e.holdings, x.2 ∈ lore)
    (steps : ∀ slot ∈ e.slots, ∀ t ∈ slot.transition.tokens, t ∈ lore) :
    Scene.Informed ⟨e, s, lore⟩ := by
  refine ⟨fun h hmem t ht => ?_, steps⟩
  obtain ⟨i, hi⟩ := List.mem_iff_getElem?.1 hmem
  exact places (i, t) (mem_spread.2 ⟨h, hi, ht⟩)

theorem Scene.Informed.grow {e : Engine} {s s' : Supply} {lore lore' : Lore}
    (h : Scene.Informed ⟨e, s, lore⟩) (mono : ∀ t ∈ lore, t ∈ lore') :
    Scene.Informed ⟨e, s', lore'⟩ :=
  ⟨fun hold hmem t ht => mono t (h.places hold hmem t ht),
    fun slot hs t ht => mono t (h.steps slot hs t ht)⟩

theorem Scene.Informed.become {sc : Scene} (h : sc.Informed) {i : Nat} {hs : List Holding}
    {tr : Transition} {s' : Supply} {lore' : Lore} (mono : ∀ t ∈ sc.lore, t ∈ lore')
    (places : ∀ x ∈ RecipeNet.spread Holding.tokens hs, x.2 ∈ lore')
    (step : ∀ t ∈ tr.tokens, t ∈ lore') : Scene.Informed ⟨sc.engine.become i hs tr, s', lore'⟩ := by
  refine Scene.informed_of_spread places fun slot hslot t ht => ?_
  rcases Engine.mem_become hslot with hold | ⟨old, -, rfl⟩
  · exact mono t (h.steps slot hold t ht)
  · exact step t ht

theorem Scene.Informed.halt {e : Engine} {s : Supply} {lore : Lore} {f : Fault}
    (h : Scene.Informed ⟨e, s, lore⟩) : Scene.Informed ⟨e.halt f, s, lore⟩ := by
  refine ⟨fun hold hmem => h.places hold ?_, fun slot hs => h.steps slot ?_⟩
  · rw [Engine.holdings_halt] at hmem
    exact hmem
  · rw [Engine.slots_halt] at hs
    exact hs

/-- A net that has just been given its start token has no other one. -/
theorem Scene.informed_entered {fitter : Fitter} {plan : Plan} {e : Engine}
    (h : e.Built fitter plan) (start : Token) {s : Supply} {lore : Lore}
    (hstart : start ∈ lore) : Scene.Informed ⟨e.entered start, s, lore⟩ := by
  refine Scene.informed_of_spread (fun x hx => ?_) fun slot hs t ht => ?_
  · rcases mem_spread_add hx with hold | hnew
    · obtain ⟨hold, hat, ht⟩ := mem_spread.1 hold
      have hmem := List.mem_of_getElem? hat
      change hold ∈ e.holdings at hmem
      rw [h.holdings] at hmem
      obtain ⟨place, -, rfl⟩ := List.mem_map.1 hmem
      cases ht
    · rw [hnew]
      exact hstart
  · obtain ⟨old, hold, htr⟩ := Engine.mem_activate hs
    obtain ⟨step, -, hfit⟩ := exists_left_of_forall₂ h.slots hold
    obtain ⟨inputs, outputs, fitting, -, -, -, rfl⟩ := Engine.fitSlot_ok.1 hfit
    rw [htr] at ht
    cases fitting <;> cases ht

namespace Join

variable {pending placed : List Generation} {g : Generation} {parent t u : Token}
  {j k width : Nat} {lore : Lore}

theorem located_known (located : locate pending parent width = (placed, j))
    (known : ∀ t ∈ pending.flatMap (·.tokens), t ∈ lore) (hparent : parent ∈ lore) :
    ∀ t ∈ placed.flatMap (·.tokens), t ∈ lore := by
  unfold locate at located
  split at located
  · cases located
    exact known
  · cases located
    intro u hu
    rw [List.flatMap_append] at hu
    rcases List.mem_append.1 hu with hold | hnew
    · exact known u hold
    · obtain rfl : u = parent := by
        simpa [Generation.tokens, List.filterMap_replicate] using hnew
      exact hparent

theorem erased_known (known : ∀ t ∈ pending.flatMap (·.tokens), t ∈ lore)
    (hu : u ∈ (Transition.join width (pending.eraseIdx j)).tokens) : u ∈ lore := by
  obtain ⟨g', hg', ht⟩ := List.mem_flatMap.1 hu
  exact known u (List.mem_flatMap.2 ⟨g', List.mem_of_mem_eraseIdx hg', ht⟩)

theorem seated_known (located : locate pending parent width = (placed, j))
    (isPlaced : placed[j]? = some g) (known : ∀ t ∈ pending.flatMap (·.tokens), t ∈ lore)
    (ht : t ∈ lore) (hparent : parent ∈ lore) {inputs : Nat}
    (hu : u ∈ (Transition.join inputs
      (placed.set j { g with slots := g.slots.set k (some t) })).tokens) : u ∈ lore := by
  have hplaced := located_known located known hparent
  have hg := List.mem_of_getElem? isPlaced
  obtain ⟨g', hg', hu'⟩ := List.mem_flatMap.1 hu
  rcases List.mem_or_eq_of_mem_set hg' with hold | rfl
  · exact hplaced u (List.mem_flatMap.2 ⟨g', hold, hu'⟩)
  · rcases List.mem_cons.1 hu' with rfl | hslot
    · exact hplaced g.parent (List.mem_flatMap.2 ⟨g, hg, List.mem_cons_self⟩)
    · obtain ⟨slot, hslot, hsome⟩ := List.mem_filterMap.1 hslot
      rcases List.mem_or_eq_of_mem_set hslot with hslot | rfl
      · refine hplaced u (List.mem_flatMap.2 ⟨g, hg, List.mem_cons_of_mem _ ?_⟩)
        exact List.mem_filterMap.2 ⟨slot, hslot, hsome⟩
      · obtain rfl := Option.some.inj hsome
        exact ht

theorem refreshed_known (isPending : pending[j]? = some g) {r : Reaction} {inputs : Nat}
    (known : ∀ t ∈ pending.flatMap (·.tokens), t ∈ lore)
    (hu : u ∈ (Transition.join inputs (pending.eraseIdx j ++ [g.refresh r])).tokens) :
    u ∈ lore := by
  obtain ⟨g', hg', hu'⟩ := List.mem_flatMap.1 hu
  rcases List.mem_append.1 hg' with hold | hnew
  · exact known u (List.mem_flatMap.2 ⟨g', List.mem_of_mem_eraseIdx hold, hu'⟩)
  · obtain rfl := List.mem_singleton.1 hnew
    refine known u (List.mem_flatMap.2 ⟨g, List.mem_of_getElem? isPending, ?_⟩)
    rcases List.mem_cons.1 hu' with rfl | hslot
    · exact List.mem_cons_self
    · refine List.mem_cons_of_mem _ (List.mem_filterMap.2 ?_)
      obtain ⟨slot, hslot, hsome⟩ := List.mem_filterMap.1 hslot
      obtain ⟨⟨old, input⟩, hold, rfl⟩ := List.mem_map.1 hslot
      obtain ⟨hkept, -⟩ := Option.filter_eq_some_iff.1 hsome
      exact ⟨old, List.fst_mem_of_mem_zipIdx hold, hkept⟩

end Join

namespace Transition.Fires

variable {step : String} {outs : Nat} {s : Supply} {tr : Transition} {firing : Firing} {lore : Lore}

theorem made_known (h : tr.Fires step outs s firing) (tokens : ∀ t ∈ tr.tokens, t ∈ lore)
    (taken : ∀ x ∈ firing.taken, x.2 ∈ lore) :
    ∀ x ∈ firing.made, x.2 ∈ lore ∨ x.2 ∈ firing.fresh := by
  intro x hx
  cases h with
  | pass output input t =>
    obtain rfl := List.mem_singleton.1 hx
    exact .inl (taken (input, t) List.mem_cons_self)
  | routed rule seen input output t =>
    obtain rfl := List.mem_singleton.1 hx
    exact .inl (taken (input, t) List.mem_cons_self)
  | split => exact .inr (List.mem_map_of_mem hx)
  | join inputs pending j g isPending =>
    obtain rfl := List.mem_singleton.1 hx
    have hg := List.mem_of_getElem? isPending
    exact .inl (tokens _ (List.mem_flatMap.2 ⟨g, hg, List.mem_cons_self⟩))
  | begin => cases hx
  | launch => cases hx

theorem after_known (h : tr.Fires step outs s firing) (tokens : ∀ t ∈ tr.tokens, t ∈ lore)
    (taken : ∀ x ∈ firing.taken, x.2 ∈ lore) : ∀ t ∈ firing.after.tokens, t ∈ lore := by
  intro u hu
  cases h with
  | pass => cases hu
  | routed => cases hu
  | split => cases hu
  | join inputs pending j g isPending =>
    obtain ⟨g', hg', ht⟩ := List.mem_flatMap.1 hu
    exact tokens u (List.mem_flatMap.2 ⟨g', List.mem_of_mem_eraseIdx hg', ht⟩)
  | begin activity held input t =>
    rcases List.mem_append.1 hu with hheld | hnew
    · exact tokens u hheld
    · obtain rfl := List.mem_singleton.1 hnew
      exact taken (input, u) List.mem_cons_self
  | launch nest child t =>
    obtain rfl := List.mem_singleton.1 hu
    exact taken (0, u) List.mem_cons_self

theorem fresh_closed (h : tr.Fires step outs s firing) (taken : ∀ x ∈ firing.taken, x.2 ∈ lore) :
    ∀ t ∈ firing.fresh, ∀ parent, t.parent = some parent → parent ∈ lore := by
  intro u hu parent hparent
  cases h with
  | split input t =>
    obtain ⟨x, hx, rfl⟩ := List.mem_map.1 hu
    obtain ⟨y, -, rfl⟩ := List.mem_map.1 hx
    obtain rfl := Option.some.inj hparent
    exact taken (input, t) List.mem_cons_self
  | launch => cases hu
  | pass => cases hu
  | routed => cases hu
  | join => cases hu
  | begin => cases hu

theorem inner_whole (h : tr.Fires step outs s firing) : ∀ t ∈ firing.inner, t.parent = none := by
  intro u hu
  cases h with
  | launch =>
    obtain rfl := List.mem_singleton.1 hu
    rfl
  | split => cases hu
  | pass => cases hu
  | routed => cases hu
  | join => cases hu
  | begin => cases hu

end Transition.Fires

namespace Act

variable {sc sc' : Scene} {events : List Event}

theorem lore_mono (h : Act sc events sc') {t : Token} (ht : t ∈ sc.lore) : t ∈ sc'.lore :=
  h.lore_le [] ht

theorem lore_closed (h : Act sc events sc') (hsc : Lore.Closed sc.lore) : Lore.Closed sc'.lore := by
  induction h with
  | fired running stands fires known =>
    exact hsc.grow (fires.fresh_closed known) fires.inner_whole
  | @inside sc i slot nest t child child' events s' lore' running stands busy act ih =>
    exact hsc.graft (ih (hsc.below slot.step))
  | _ => exact hsc

/-- The tokens of a net stay known when a step fires. -/
theorem fired_informed {fitter : Fitter} (hf : fitter.Regular) {sc : Scene} (hsc : sc.Informed)
    (hfits : sc.engine.Fits fitter) {i : Nat} {slot : Slot} {firing : Firing} {r r' : Reaction}
    (stands : sc.engine.slots[i]? = some slot)
    (fires : slot.transition.Fires slot.step slot.outputs.length sc.supply firing)
    (known : ∀ x ∈ firing.taken, x.2 ∈ sc.lore) (sees : r.Sees sc.engine slot)
    (fire : r.fire firing.taken firing.made = (r', .ok true)) :
    Scene.Informed ⟨sc.engine.become i r'.holdings firing.after, firing.supply,
      sc.lore.grow slot.step firing.fresh firing.inner⟩ := by
  have hmem := List.mem_of_getElem? stands
  have houts : ∀ p ∈ r.outputs, p < r.holdings.length := by
    rw [sees.outputs, sees.holdings]
    exact (hfits.slot hf hmem).outputs
  obtain ⟨-, -, -, removed, placed, -, hplaced, -, hspread⟩ := Reaction.fire_true fire houts
  refine hsc.become (fun t ht => Lore.mem_grow.2 (.inl ht)) (fun x hx => ?_) fun t ht =>
    Lore.mem_grow.2 (.inl (fires.after_known (hsc.steps _ hmem) known t ht))
  have hx' : x ∈ RecipeNet.spread Holding.tokens r.holdings + (placed : Multiset _) :=
    hspread ▸ Multiset.mem_add.2 (.inl hx)
  rw [sees.holdings] at hx'
  rcases Multiset.mem_add.1 hx' with hold | hnew
  · exact Lore.mem_grow.2 (.inl (hsc.spread hold))
  · obtain ⟨m, hm, -, heq⟩ := exists_left_of_forall₂ hplaced (Multiset.mem_coe.1 hnew)
    rw [heq]
    exact Lore.mem_grow.2 (fires.made_known (hsc.steps _ hmem) known m hm)

/-- The tokens of a net stay known when a step is done with some of its work. -/
theorem informed {fitter : Fitter} (hf : fitter.Regular) (h : Act sc events sc')
    (hfits : sc.engine.Fits fitter) (hsc : sc.Informed) : sc'.Informed := by
  cases h with
  | woken =>
    refine ⟨hsc.places, fun slot hs t ht => ?_⟩
    obtain ⟨old, hold, htr⟩ := Engine.mem_activate hs
    exact hsc.steps old hold t (htr ▸ ht)
  | fired _ stands fires known sees fire =>
    exact fired_informed hf hsc hfits stands fires known sees fire
  | seated running stands join known isSplit parentKnown holds located isPlaced =>
    have htokens := hsc.steps _ (List.mem_of_getElem? stands)
    rw [join] at htokens
    refine hsc.become (fun t ht => ht) (fun x hx => hsc.spread hx) fun u hu => ?_
    exact Join.seated_known located isPlaced htokens known parentKnown hu
  | refreshed running stands join isPending =>
    have htokens := hsc.steps _ (List.mem_of_getElem? stands)
    rw [join] at htokens
    refine hsc.become (fun t ht => ht) (fun x hx => hsc.spread hx) fun u hu => ?_
    exact Join.refreshed_known isPending htokens hu
  | botched running stands join isPending consume =>
    have htokens := hsc.steps _ (List.mem_of_getElem? stands)
    rw [join] at htokens
    refine (hsc.become (fun t ht => ht) (fun x hx => ?_) fun u hu => ?_).halt
    · exact hsc.spread (Reaction.spread_consume consume hx)
    · exact Join.erased_known htokens hu
  | refused => exact hsc.halt
  | balked running stands routed =>
    exact (hsc.become (fun t ht => ht) (fun x hx => hsc.spread hx) fun u hu => by cases hu).halt
  | released running stands task isHeld =>
    have htokens := hsc.steps _ (List.mem_of_getElem? stands)
    rw [task] at htokens
    refine hsc.become (fun t ht => ht) (fun x hx => ?_) fun u hu =>
      htokens u (List.mem_of_mem_eraseIdx hu)
    rcases mem_spread_add hx with hold | hnew
    · exact hsc.spread hold
    · rw [hnew]
      exact htokens _ (List.mem_of_getElem? isHeld)
  | closed running stands busy =>
    have htokens := hsc.steps _ (List.mem_of_getElem? stands)
    rw [busy] at htokens
    refine hsc.become (fun t ht => ht) (fun x hx => ?_) fun u hu => by cases hu
    rcases mem_spread_add hx with hold | hnew
    · exact hsc.spread hold
    · rw [hnew]
      exact htokens _ List.mem_cons_self
  | announced => exact hsc
  | ended => exact ⟨hsc.places, hsc.steps⟩
  | inside running stands busy act =>
    have htokens := hsc.steps _ (List.mem_of_getElem? stands)
    rw [busy] at htokens
    exact hsc.become (fun t ht => ht) (fun x hx => hsc.spread hx) fun u hu => htokens u hu
  | sunk => exact hsc.halt

end Act

structure Scene.Kept (fitter : Fitter) (sc : Scene) : Prop where
  fits : sc.engine.Fits fitter
  informed : sc.Informed

theorem Act.kept {fitter : Fitter} (hf : fitter.Regular) {sc sc' : Scene} {events : List Event}
    (h : Act sc events sc') (hsc : sc.Throughout (Scene.Kept fitter)) :
    sc'.Throughout (Scene.Kept fitter) := by
  refine h.throughout ?_ ?_ ?_ hsc
  · intro a b events _ e lore lore' hle he
    exact ⟨he.fits, he.informed.grow fun t ht => hle [] ht⟩
  · intro a b events act ha
    have here : a.Kept fitter := ha.here
    exact ⟨act.fits here.fits, act.informed hf here.fits here.informed⟩
  · intro a slot nest t child hs hidle ht hbuild ha
    have here : a.Kept fitter := ha.here
    have hb := Engine.built_of_build hbuild
    refine ⟨Scene.fits_launched hf here.fits hs hidle hbuild _, ?_⟩
    exact Scene.informed_entered hb _ (Lore.mem_grow_below.2 (.inr List.mem_cons_self))

structure Scene.Sound (fitter : Fitter) (sc : Scene) : Prop where
  kept : sc.Throughout (Scene.Kept fitter)
  closed : sc.lore.Closed

namespace Scene.Sound

variable {fitter : Fitter} {sc : Scene}

theorem fits (h : sc.Sound fitter) : sc.engine.Fits fitter := h.kept.here.fits

theorem informed (h : sc.Sound fitter) : sc.Informed := h.kept.here.informed

theorem child (h : sc.Sound fitter) {slot : Slot} (hs : slot ∈ sc.engine.slots) {nest : Nest}
    {t : Token} {child : Engine} (ht : slot.transition = .busy nest t child) :
    (sc.nested slot child).Sound fitter :=
  ⟨h.kept.child hs ht, h.closed.below slot.step⟩

end Scene.Sound

theorem Course.sound {fitter : Fitter} (hf : fitter.Regular) {sc sc' : Scene}
    {events : List Event} (h : Course sc events sc') (hsc : sc.Sound fitter) :
    sc'.Sound fitter :=
  h.keeps (fun act ha => ⟨act.kept hf ha.kept, act.lore_closed ha.closed⟩) hsc

end RecipeNet
