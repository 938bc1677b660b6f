import RecipeNet.Proofs.Net.Act

/-!
What every act keeps, and so every course: the outline of each net, and with it
the bond of each net to the plan that it runs. A property that holds of a net
and of all nets within it is kept when the act that changes one of them keeps it
there.
-/

namespace RecipeNet

theorem Course.keeps {P : Scene → Prop}
    (step : ∀ {a b : Scene} {events : List Event}, Act a events b → P a → P b)
    {a b : Scene} {events : List Event} (h : Course a events b) (ha : P a) : P b := by
  induction h with
  | nil => exact ha
  | cons act _ ih => exact ih (step act ha)

namespace Engine

variable {P : Engine → Prop}

/-- A fault changes nothing but the status and the record of what has stopped the net. -/
theorem halt_eq (e : Engine) (f : Fault) :
    ∃ status haltedBy, e.halt f = { e with status, haltedBy } := by
  cases e
  unfold halt
  by_cases hf : f.halts = true
  · exact ⟨_, _, if_pos hf⟩
  · exact ⟨_, _, if_neg hf⟩

theorem outline_halt (e : Engine) (f : Fault) : (e.halt f).outline = e.outline := by
  obtain ⟨status, haltedBy, h⟩ := e.halt_eq f
  rw [h]
  rfl

theorem outline_activate (e : Engine) : e.activate.outline = e.outline := by
  simp only [activate, outline, List.map_map]
  rfl

theorem outline_entered (e : Engine) (t : Token) : (e.entered t).outline = e.outline := by
  have hplaces := Reaction.map_place_modify e.holdings e.startPlace t
  have hholds := congrArg (List.map Holding.new) hplaces
  simp only [List.map_map] at hholds
  simp only [entered, activate, outline, List.map_map]
  rw [show (fun h : Holding => Holding.new h.place) = Holding.new ∘ Holding.place from rfl, hholds]
  rfl

theorem slots_halt (e : Engine) (f : Fault) : (e.halt f).slots = e.slots := by
  obtain ⟨status, haltedBy, h⟩ := e.halt_eq f
  rw [h]

theorem holdings_halt (e : Engine) (f : Fault) : (e.halt f).holdings = e.holdings := by
  obtain ⟨status, haltedBy, h⟩ := e.halt_eq f
  rw [h]

theorem mem_activate {e : Engine} {slot : Slot} (h : slot ∈ e.activate.slots) :
    ∃ old ∈ e.slots, slot.transition = old.transition := by
  obtain ⟨old, hold, rfl⟩ := List.mem_map.1 h
  exact ⟨old, hold, rfl⟩

end Engine

namespace Transition

variable {step : String} {outs : Nat} {s : Supply} {tr : Transition} {firing : Firing}

theorem Fires.outline (h : tr.Fires step outs s firing) : firing.after.outline = tr.outline := by
  cases h <;> rfl

end Transition

namespace Act

variable {sc sc' : Scene} {events : List Event}

theorem outline (h : Act sc events sc') : sc'.engine.outline = sc.engine.outline := by
  cases h with
  | woken =>
    change (Engine.activate sc.engine).outline = sc.engine.outline
    exact Engine.outline_activate sc.engine
  | fired _ stands fires _ sees fire =>
    have hfol := Reaction.fire_follows fire
    refine Engine.outline_become stands ?_ fires.outline
    rw [hfol.places, sees.holdings]
  | seated _ stands join => exact Engine.outline_become stands rfl (by rw [join]; rfl)
  | refreshed _ stands join => exact Engine.outline_become stands rfl (by rw [join]; rfl)
  | botched _ stands join _ consume =>
    rw [Engine.outline_halt]
    have hfol := Reaction.consume_follows consume
    exact Engine.outline_become stands hfol.places (by rw [join]; rfl)
  | refused => exact Engine.outline_halt _ _
  | balked _ stands routed =>
    rw [Engine.outline_halt]
    exact Engine.outline_become stands rfl (by rw [routed]; rfl)
  | released _ stands task =>
    exact Engine.outline_become stands (Reaction.map_place_modify _ _ _) (by rw [task]; rfl)
  | closed _ stands busy =>
    exact Engine.outline_become stands (Reaction.map_place_modify _ _ _) (by rw [busy]; rfl)
  | announced => rfl
  | ended => rfl
  | inside _ stands busy => exact Engine.outline_become stands rfl (by rw [busy]; rfl)
  | sunk => exact Engine.outline_halt _ _

theorem plan_eq (h : Act sc events sc') : sc'.engine.plan = sc.engine.plan := by
  have hplan := congrArg Engine.plan h.outline
  exact hplan

end Act

namespace Engine.Built

variable {fitter : Fitter} {plan : Plan} {e : Engine}

theorem empty (h : Built fitter plan e) : ∀ hold ∈ e.holdings, hold.tokens = [] := by
  intro hold hmem
  rw [h.holdings] at hmem
  obtain ⟨place, -, rfl⟩ := List.mem_map.1 hmem
  rfl

theorem fresh (h : Built fitter plan e) {slot : Slot} (hs : slot ∈ e.slots) :
    slot.phase = .initialized ∧ slot.transition.outline = slot.transition ∧
      slot.transition.tokens = [] := by
  obtain ⟨step, -, hfit⟩ := exists_left_of_forall₂ h.slots hs
  obtain ⟨inputs, outputs, fitting, -, -, -, rfl⟩ := fitSlot_ok.1 hfit
  exact ⟨rfl, Transition.outline_ofFitting _ _, by cases fitting <;> rfl⟩

theorem startPlace_lt (h : Built fitter plan e) : e.startPlace < e.holdings.length := by
  obtain ⟨place, hplace, hrole⟩ := (Plan.sound_of_flaws h.sound).start
  have hmem : Holding.new place ∈ e.holdings := by
    rw [h.holdings]
    exact List.mem_map_of_mem hplace
  unfold startPlace
  cases hfind : e.holdings.findIdx? (·.place.role == .start) with
  | none =>
    have hnone := List.findIdx?_eq_none_iff.1 hfind _ hmem
    simp [Holding.new, hrole] at hnone
  | some i =>
    obtain ⟨hlt, -⟩ := List.findIdx?_eq_some_iff_getElem.1 hfind
    exact hlt

end Engine.Built

/-- A net that has just been built runs no nets within. -/
theorem Engine.Built.vacant {fitter : Fitter} {plan : Plan} {e : Engine}
    (h : e.Built fitter plan) {slot : Slot} (hs : slot ∈ e.slots) (nest : Nest) (t : Token)
    (child : Engine) : slot.transition ≠ .busy nest t child := by
  obtain ⟨step, -, hfit⟩ := exists_left_of_forall₂ h.slots hs
  obtain ⟨inputs, outputs, fitting, -, -, -, rfl⟩ := fitSlot_ok.1 hfit
  cases fitting <;> exact fun h => by cases h

theorem Engine.entered_vacant {fitter : Fitter} {plan : Plan} {e : Engine}
    (h : e.Built fitter plan) (start : Token) {slot : Slot} (hs : slot ∈ (e.entered start).slots)
    (nest : Nest) (t : Token) (child : Engine) : slot.transition ≠ .busy nest t child := by
  obtain ⟨old, hold, htr⟩ := mem_activate hs
  rw [htr]
  exact h.vacant hold nest t child

theorem Engine.entered_throughout {P : Engine → Prop} {fitter : Fitter} {plan : Plan} {e : Engine}
    (h : e.Built fitter plan) (start : Token) (here : P (e.entered start)) :
    (e.entered start).Throughout P :=
  .intro here fun _ hs nest t child ht => absurd ht (entered_vacant h start hs nest t child)

theorem Engine.Fits.entered {fitter : Fitter} {plan : Plan} {e : Engine}
    (h : Engine.build fitter plan = .ok e) (start : Token) : (e.entered start).Fits fitter := by
  have hb := built_of_build h
  refine ⟨?_, fun slot hs nest t child ht => absurd ht (entered_vacant hb start hs nest t child)⟩
  rw [outline_entered, outline_of_build h]
  have hplan : (e.entered start).plan = plan := hb.runs
  rw [hplan]
  exact h

theorem Act.lore_le {sc sc' : Scene} {events : List Event} (h : Act sc events sc') :
    sc.lore ≤ sc'.lore := by
  induction h with
  | fired => exact Lore.le_grow _ _ _ _
  | inside _ _ _ _ ih => exact Lore.le_graft ih
  | _ => exact fun _ => subset_rfl

def Scene.nested (sc : Scene) (slot : Slot) (child : Engine) : Scene :=
  ⟨child, sc.supply, sc.lore.below slot.step⟩

/-- A property of a scene that also holds in every net within. -/
inductive Scene.Throughout (P : Scene → Prop) : Scene → Prop
  | intro {sc : Scene} (here : P sc)
      (inside : ∀ slot ∈ sc.engine.slots, ∀ nest t child,
        slot.transition = .busy nest t child → Throughout P (sc.nested slot child)) :
    Throughout P sc

namespace Scene.Throughout

variable {P Q : Scene → Prop} {sc sc' : Scene}

theorem here (h : sc.Throughout P) : P sc := by
  cases h with
  | intro here _ => exact here

theorem child (h : sc.Throughout P) {slot : Slot} (hs : slot ∈ sc.engine.slots) {nest : Nest}
    {t : Token} {child : Engine} (ht : slot.transition = .busy nest t child) :
    (sc.nested slot child).Throughout P := by
  cases h with
  | intro _ inside => exact inside slot hs nest t child ht

theorem imp (hPQ : ∀ sc, P sc → Q sc) (h : sc.Throughout P) : sc.Throughout Q := by
  induction h with
  | intro here _ ih => exact .intro (hPQ _ here) ih

theorem become {e : Engine} {s : Supply} {lore : Lore} {i : Nat} {hs : List Holding}
    {tr : Transition} (h : Scene.Throughout P ⟨e, s, lore⟩) (here : P ⟨e.become i hs tr, s, lore⟩)
    (vacant : ∀ nest t child, tr ≠ .busy nest t child) :
    Scene.Throughout P ⟨e.become i hs tr, s, lore⟩ := by
  refine .intro here fun slot hmem nest t child ht => ?_
  rcases Engine.mem_become hmem with hold | ⟨old, -, rfl⟩
  · exact h.child hold ht
  · exact absurd ht (vacant nest t child)

theorem halt {e : Engine} {s : Supply} {lore : Lore} {f : Fault}
    (h : Scene.Throughout P ⟨e, s, lore⟩) (here : P ⟨e.halt f, s, lore⟩) :
    Scene.Throughout P ⟨e.halt f, s, lore⟩ := by
  refine .intro here fun slot hs nest t child ht => ?_
  change slot ∈ (e.halt f).slots at hs
  rw [Engine.slots_halt] at hs
  exact h.child hs ht

theorem halt_become {e : Engine} {s : Supply} {lore : Lore} {i : Nat} {hs : List Holding}
    {tr : Transition} {f : Fault} (h : Scene.Throughout P ⟨e, s, lore⟩)
    (here : P ⟨(e.become i hs tr).halt f, s, lore⟩)
    (vacant : ∀ nest t child, tr ≠ .busy nest t child) :
    Scene.Throughout P ⟨(e.become i hs tr).halt f, s, lore⟩ := by
  refine .intro here fun slot hmem nest t child ht => ?_
  change slot ∈ ((e.become i hs tr).halt f).slots at hmem
  rw [Engine.slots_halt] at hmem
  rcases Engine.mem_become hmem with hold | ⟨old, -, rfl⟩
  · exact h.child hold ht
  · exact absurd ht (vacant nest t child)

/-- A property that survives changes elsewhere, throughout. -/
theorem elsewhere {e : Engine} {s s' : Supply} {lore lore' : Lore}
    (keeps : ∀ (e : Engine) (lore lore' : Lore), lore ≤ lore' → P ⟨e, s, lore⟩ → P ⟨e, s', lore'⟩)
    (h : Scene.Throughout P ⟨e, s, lore⟩) (hle : lore ≤ lore') :
    Scene.Throughout P ⟨e, s', lore'⟩ := by
  generalize hsc : (⟨e, s, lore⟩ : Scene) = sc at h
  induction h generalizing e lore lore' with
  | intro here inside ih =>
    subst hsc
    refine .intro (keeps e lore lore' hle here) fun slot hs nest t child ht => ?_
    exact ih slot hs nest t child ht (Lore.below_le hle slot.step) rfl

end Scene.Throughout

/-- An act keeps a property at every depth if it keeps it in the net where it
takes place, if the property survives what happens elsewhere, and if the nets
that are launched have it. Circumstances that hold at every depth may be relied
on in the net where the act takes place. -/
theorem Act.throughout_within {C : Scene → Supply → Prop} {P : Scene → Prop}
    (descend : ∀ {sc : Scene} {s' : Supply} {slot : Slot} {nest : Nest} {t : Token}
      {child : Engine}, C sc s' → slot ∈ sc.engine.slots → slot.transition = .busy nest t child →
        C (sc.nested slot child) s')
    (elsewhere : ∀ {a b : Scene} {events : List Event}, Act a events b →
      ∀ (e : Engine) (lore lore' : Lore), lore ≤ lore' → P ⟨e, a.supply, lore⟩ →
        P ⟨e, b.supply, lore'⟩)
    (own : ∀ {a b : Scene} {events : List Event}, Act a events b → C a b.supply →
      a.Throughout P → P b)
    (launched : ∀ {a : Scene} {slot : Slot} {nest : Nest} {t : Token} {child : Engine},
      slot ∈ a.engine.slots → slot.transition = .idle nest → t ∈ a.lore →
      Engine.build nest.fitter nest.plan = .ok child → a.Throughout P →
      P ⟨child.entered (Nest.startToken t a.supply).1, (Nest.startToken t a.supply).2,
        (a.lore.grow slot.step [] [(Nest.startToken t a.supply).1]).below slot.step⟩)
    {sc sc' : Scene} {events : List Event} (h : Act sc events sc') (hC : C sc sc'.supply)
    (hsc : sc.Throughout P) : sc'.Throughout P := by
  induction h with
  | woken paused =>
    refine .intro (own (.woken paused) hC hsc) fun slot hs nest t child ht => ?_
    obtain ⟨old, hold, rfl⟩ := List.mem_map.1 hs
    exact hsc.child hold ht
  | @fired sc i slot firing r r' running stands fires known sees fire =>
    have act := Act.fired running stands fires known sees fire
    refine .intro (own act hC hsc) fun new hnew nest t child ht => ?_
    rcases Engine.mem_become hnew with hold | ⟨old, hat, rfl⟩
    · exact (hsc.child hold ht).elsewhere (elsewhere act) (Lore.below_le act.lore_le new.step)
    · obtain rfl := Option.some.inj (stands.symm.trans hat)
      have hmem := List.mem_of_getElem? stands
      -- Only a launch puts a net behind the step, and that one has no net within yet.
      generalize htr : slot.transition = tr at fires
      cases fires with
      | launch nest child t built =>
        cases ht
        have hknown := known (0, t) List.mem_cons_self
        refine .intro (launched hmem htr hknown built hsc) fun inner hinner nest' t' child' ht' => ?_
        exact absurd ht' (Engine.entered_vacant (Engine.built_of_build built) _ hinner nest' t' child')
      | pass => cases ht
      | routed => cases ht
      | split => cases ht
      | join => cases ht
      | begin => cases ht
  | seated running stands join known isSplit parentKnown holds located isPlaced unseen free =>
    have act := Act.seated running stands join known isSplit parentKnown holds located isPlaced
      unseen free
    exact hsc.become (own act hC hsc) nofun
  | refreshed running stands join isPending stale =>
    have act := Act.refreshed running stands join isPending stale
    exact hsc.become (own act hC hsc) nofun
  | botched running stands join isPending consume held =>
    have act := Act.botched running stands join isPending consume held
    exact hsc.halt_become (own act hC hsc) nofun
  | refused running stands join known holds refuses =>
    have act := Act.refused running stands join known holds refuses
    exact hsc.halt (own act hC hsc)
  | balked running stands routed known refuses =>
    have act := Act.balked running stands routed known refuses
    exact hsc.halt_become (own act hC hsc) nofun
  | released running stands task isHeld target =>
    have act := Act.released running stands task isHeld target
    exact hsc.become (own act hC hsc) nofun
  | closed running stands busy ended completion mapped target =>
    have act := Act.closed running stands busy ended completion mapped target
    exact hsc.become (own act hC hsc) nofun
  | announced => exact hsc
  | ended running stands terminal known =>
    have act := Act.ended running stands terminal known
    exact .intro (own act hC hsc) fun slot hs nest t child ht => hsc.child hs ht
  | @inside sc i slot nest t child child' events s' lore' running stands busy act ih =>
    have whole := Act.inside running stands busy act
    have hmem := List.mem_of_getElem? stands
    refine .intro (own whole hC hsc) fun new hnew nest' t' inner ht => ?_
    rcases Engine.mem_become hnew with hold | ⟨old, hat, rfl⟩
    · exact (hsc.child hold ht).elsewhere (elsewhere whole)
        (Lore.below_le whole.lore_le new.step)
    · obtain rfl := Option.some.inj (stands.symm.trans hat)
      cases ht
      -- The net that acts has the property by induction; those beside it only learn.
      have hchild := ih (descend hC hmem busy) (hsc.child hmem busy)
      have hbelow := Lore.below_graft sc.lore slot.step lore'
      unfold Scene.nested
      rw [hbelow]
      exact hchild
  | sunk running stands busy halted halts =>
    have act := Act.sunk running stands busy halted halts
    exact hsc.halt (own act hC hsc)

/-- An act keeps a property at every depth, whatever the circumstances. -/
theorem Act.throughout {P : Scene → Prop}
    (elsewhere : ∀ {a b : Scene} {events : List Event}, Act a events b →
      ∀ (e : Engine) (lore lore' : Lore), lore ≤ lore' → P ⟨e, a.supply, lore⟩ →
        P ⟨e, b.supply, lore'⟩)
    (own : ∀ {a b : Scene} {events : List Event}, Act a events b → a.Throughout P → P b)
    (launched : ∀ {a : Scene} {slot : Slot} {nest : Nest} {t : Token} {child : Engine},
      slot ∈ a.engine.slots → slot.transition = .idle nest → t ∈ a.lore →
      Engine.build nest.fitter nest.plan = .ok child → a.Throughout P →
      P ⟨child.entered (Nest.startToken t a.supply).1, (Nest.startToken t a.supply).2,
        (a.lore.grow slot.step [] [(Nest.startToken t a.supply).1]).below slot.step⟩)
    {sc sc' : Scene} {events : List Event} (h : Act sc events sc') (hsc : sc.Throughout P) :
    sc'.Throughout P :=
  h.throughout_within (C := fun _ _ => True) (fun _ _ _ => trivial) elsewhere
    (fun act _ => own act) launched trivial hsc

/-- The nets that steps run are those that were run before, further on, or new ones. -/
theorem Act.nested {sc sc' : Scene} {events : List Event} (h : Act sc events sc')
    {slot : Slot} (hs : slot ∈ sc'.engine.slots) {nest : Nest} {t : Token} {child : Engine}
    (ht : slot.transition = .busy nest t child) :
    (∃ old ∈ sc.engine.slots, ∃ before, old.transition = .busy nest t before ∧
      child.outline = before.outline) ∨
    ∃ built start, Engine.build nest.fitter nest.plan = .ok built ∧
      child = built.entered start := by
  cases h with
  | woken =>
    obtain ⟨old, hold, htr⟩ := Engine.mem_activate hs
    exact .inl ⟨old, hold, child, htr ▸ ht, rfl⟩
  | @fired _ _ old _ _ _ running stands fires =>
    rcases Engine.mem_become hs with hold | ⟨prior, -, rfl⟩
    · exact .inl ⟨slot, hold, child, ht, rfl⟩
    · generalize old.transition = tr at fires
      cases fires <;> cases ht
      exact .inr ⟨_, _, ‹Engine.build _ _ = .ok _›, rfl⟩
  | seated | refreshed | released | closed =>
    rcases Engine.mem_become hs with hold | ⟨old, -, rfl⟩
    · exact .inl ⟨slot, hold, child, ht, rfl⟩
    · cases ht
  | botched | balked =>
    rw [Engine.slots_halt] at hs
    rcases Engine.mem_become hs with hold | ⟨old, -, rfl⟩
    · exact .inl ⟨slot, hold, child, ht, rfl⟩
    · cases ht
  | refused | sunk =>
    rw [Engine.slots_halt] at hs
    exact .inl ⟨slot, hs, child, ht, rfl⟩
  | announced | ended => exact .inl ⟨slot, hs, child, ht, rfl⟩
  | inside running stands busy act =>
    rcases Engine.mem_become hs with hold | ⟨old, -, rfl⟩
    · exact .inl ⟨slot, hold, child, ht, rfl⟩
    · cases ht
      exact .inl ⟨_, List.mem_of_getElem? stands, _, busy, act.outline⟩

/-- A net that a step launches is fitted to the plan of the step. -/
theorem Scene.fits_launched {fitter : Fitter} (hf : fitter.Regular) {sc : Scene}
    (hsc : sc.engine.Fits fitter) {slot : Slot} (hs : slot ∈ sc.engine.slots) {nest : Nest}
    (hidle : slot.transition = .idle nest) {child : Engine}
    (hbuild : Engine.build nest.fitter nest.plan = .ok child) (start : Token) :
    (child.entered start).Fits fitter := by
  have hsuits := (hsc.slot hf hs).suits
  rw [hidle] at hsuits
  obtain ⟨-, hfitter, -⟩ := hsuits
  rw [hfitter] at hbuild
  exact Engine.Fits.entered hbuild start

/-- Acts keep a net fitted to its plan. -/
theorem Act.fits {fitter : Fitter} {sc sc' : Scene} {events : List Event}
    (h : Act sc events sc') (hsc : sc.engine.Fits fitter) : sc'.engine.Fits fitter := by
  refine ⟨by rw [h.plan_eq, h.outline]; exact hsc.1, ?_⟩
  intro slot hs nest t child ht
  rcases h.nested hs ht with ⟨old, hold, before, hbusy, houtline⟩ | ⟨built, start, hbuild, rfl⟩
  · have hplan := congrArg Engine.plan houtline
    exact hplan.trans (hsc.2 old hold nest t before hbusy)
  · exact (Engine.built_of_build hbuild).runs

end RecipeNet
