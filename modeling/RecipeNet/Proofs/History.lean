import RecipeNet.Proofs.Net.Worth
import RecipeNet.Proofs.Refinement

/-!
The history of a net. A net that was built and then run has come to the tokens
that it holds by the firings that it has reported, and so have the nets within
it. Its chronicle decides whether a token is held twice, and whether a join has
taken siblings of different splits.
-/

namespace RecipeNet

namespace Engine

variable {fitter : Fitter} {plan : Plan} {e : Engine} {past : List Deed}

def Chronicled (e : Engine) (past : List Deed) : Prop := Chronicle e.outline.slots past e.work

/-- A net that has just been started holds its start token. -/
theorem Built.entered_chronicled (h : Built fitter plan e) (past : List Deed)
    (hpast : Chronicle e.outline.slots past 0) (t : Token) :
    (e.entered t).Chronicled (.enter t :: past) := by
  have hwork : (e.entered t).work = {t} := by
    rw [Engine.work, marking_entered h.startPlace_lt, Multiset.map_cons]
    change t ::ₘ e.work = {t}
    rw [h.work]
    rfl
  rw [Chronicled, outline_entered, hwork]
  exact @Chronicle.cons _ _ (.enter t) hpast (.enter t)

theorem Fits.takes (hf : fitter.Regular) (h : e.Fits fitter) : ∀ slot ∈ e.outline.slots, ∀ n,
    slot.transition.outline = .join n [] → slot.inputs ≠ [] := by
  intro slot hslot n htr hnil
  obtain ⟨old, hold, rfl⟩ := List.mem_map.1 hslot
  have hsuits := (h.slot hf hold).suits
  rw [← Transition.suits_outline, ← old.transition.outline_outline] at hsuits
  change old.transition.outline.outline = _ at htr
  rw [htr] at hsuits
  exact hsuits.2.1.ne' (congrArg List.length hnil)

end Engine

/-- The tokens that a net holds, and those that they come from, are known. -/
theorem Scene.Sound.known {fitter : Fitter} {sc : Scene} (h : sc.Sound fitter) :
    sc.position.Known := by
  intro t ht w hw
  have hlore : t ∈ sc.lore := by
    change t ∈ sc.engine.work at ht
    rw [Engine.work_eq] at ht
    rcases List.mem_append.1 ht with hplace | hstep
    · obtain ⟨hold, hmem, htok⟩ := List.mem_flatMap.1 hplace
      exact h.informed.places hold hmem t htok
    · obtain ⟨slot, hs, htok⟩ := List.mem_flatMap.1 hstep
      exact h.informed.steps slot hs t (slot.transition.taken_subset htok)
  have hclosed := Token.forall_ancestry (h.closed []) t hlore
  exact ⟨[], w, hclosed w hw, rfl⟩

namespace Act

variable {fitter : Fitter} {last : Supply} {sc sc' : Scene} {events : List Event}

/-- Whatever a net does, its chronicle goes on with the firings that are reported. -/
theorem chronicled (hf : fitter.Regular) (h : Act sc events sc')
    (hle : sc'.supply.used ≤ last.used) (hsc : sc.Straight fitter last) {past : List Deed}
    (hpast : sc.engine.Chronicled past) : ∃ more, sc'.engine.Chronicled (more ++ past) ∧
      more.reverse.filterMap Deed.step? = events.filterMap Event.own? := by
  unfold Engine.Chronicled
  rw [h.outline]
  exact hpast.extend (h.moves hf hle hsc) (hsc.sound.fits.takes hf) hsc.sound.known

end Act

/-- Circumstances in which all nets of a scene can be relied on until some supply
has been used up. -/
structure Scene.Steadfast (fitter : Fitter) (last : Supply) (sc : Scene) : Prop where
  sound : sc.Sound fitter
  clear : sc.Clear last
  orderly : sc.engine.Throughout (Engine.Orderly Siblings)

namespace Scene.Steadfast

variable {fitter : Fitter} {last : Supply} {sc sc' : Scene} {events : List Event}

theorem straight (h : sc.Steadfast fitter last) : sc.Straight fitter last :=
  ⟨h.sound, h.clear, h.orderly.here⟩

theorem child (h : sc.Steadfast fitter last) {slot : Slot} (hs : slot ∈ sc.engine.slots)
    {nest : Nest} {t : Token} {child : Engine} (ht : slot.transition = .busy nest t child) :
    (sc.nested slot child).Steadfast fitter last :=
  ⟨h.sound.child hs ht, h.clear.nested slot child, h.orderly.child hs ht⟩

theorem act (hf : fitter.Regular) (h : Act sc events sc') (hle : sc'.supply.used ≤ last.used)
    (hsc : sc.Steadfast fitter last) : sc'.Steadfast fitter last := by
  refine ⟨⟨h.kept hf hsc.sound.kept, h.lore_closed hsc.sound.closed⟩, h.clear hle hsc.clear, ?_⟩
  have hboth := (Engine.throughout_fits hsc.sound.kept).and hsc.orderly
  exact ((Course.of_act h).orderly siblings_lasting hf hboth).imp fun e he => he.2

end Scene.Steadfast

namespace Course

variable {fitter : Fitter} {last : Supply} {sc sc' : Scene} {events : List Event}

theorem steadfast (hf : fitter.Regular) (h : Course sc events sc')
    (hle : sc'.supply.used ≤ last.used) (hsc : sc.Steadfast fitter last) :
    sc'.Steadfast fitter last := by
  induction h with
  | nil => exact hsc
  | cons act rest ih => exact ih hle (hsc.act hf act (rest.used_le.trans hle))

/-- The chronicle of a net goes on with the firings that are reported. -/
theorem chronicled (hf : fitter.Regular) (h : Course sc events sc')
    (hle : sc'.supply.used ≤ last.used) (hsc : sc.Steadfast fitter last) {past : List Deed}
    (hpast : sc.engine.Chronicled past) : ∃ more, sc'.engine.Chronicled (more ++ past) ∧
      more.reverse.filterMap Deed.step? = events.filterMap Event.own? := by
  induction h generalizing past with
  | nil => exact ⟨[], hpast, rfl⟩
  | cons act rest ih =>
    have hmid := rest.used_le.trans hle
    obtain ⟨first, hfirst, hevents⟩ := act.chronicled hf hmid hsc.straight hpast
    obtain ⟨more, hmore, hlater⟩ := ih hle (hsc.act hf act hmid) hfirst
    refine ⟨more ++ first, by rwa [List.append_assoc], ?_⟩
    rw [List.reverse_append, List.filterMap_append, List.filterMap_append, hevents, hlater]

/-- What each act keeps in the net where it takes place, and what nets have that are
launched, holds at every depth in the end. -/
theorem throughout {P : Engine → Prop} (hf : fitter.Regular)
    (own : ∀ {a b : Scene} {events : List Event}, Act a events b → b.supply.used ≤ last.used →
      a.Steadfast fitter last → a.Throughout (fun sc => P sc.engine) → P b.engine)
    (launched : ∀ {fitter : Fitter} {plan : Plan} {e : Engine}, e.Built fitter plan →
      ∀ t, P (e.entered t))
    (h : Course sc events sc') (hle : sc'.supply.used ≤ last.used) (hsc : sc.Steadfast fitter last)
    (hall : sc.engine.Throughout P) : sc'.engine.Throughout P := by
  have hscenes := Scene.throughout_engine hall sc.supply sc.lore
  change sc.Throughout _ at hscenes
  clear hall
  refine Engine.throughout_scene ?_
  induction h with
  | nil => exact hscenes
  | cons act rest ih =>
    have hmid := rest.used_le.trans hle
    refine ih hle (hsc.act hf act hmid) (act.throughout_within
      (C := fun sc s' => sc.Steadfast fitter last ∧ s'.used ≤ last.used) ?_ ?_ ?_ ?_
      ⟨hsc, hmid⟩ hscenes)
    · exact fun ⟨hsc, hle⟩ hs ht => ⟨hsc.child hs ht, hle⟩
    · exact fun _ e lore lore' _ he => he
    · exact fun act ⟨hsc, hle⟩ ha => own act hle hsc ha
    · exact fun _ _ _ hbuild _ => launched (Engine.built_of_build hbuild) _

/-- The nets within have chronicles too, also those that are launched. -/
theorem chronicles (hf : fitter.Regular) (h : Course sc events sc')
    (hle : sc'.supply.used ≤ last.used) (hsc : sc.Steadfast fitter last)
    (hall : sc.engine.Throughout fun e => ∃ past, e.Chronicled past) :
    sc'.engine.Throughout fun e => ∃ past, e.Chronicled past := by
  refine h.throughout hf (fun {a b events} act hle hsc ha => ?_) (fun hb t => ?_) hle hsc hall
  · obtain ⟨past, hpast⟩ := ha.here
    obtain ⟨more, hmore, -⟩ := act.chronicled hf hle hsc.straight hpast
    exact ⟨_, hmore⟩
  · exact ⟨_, hb.entered_chronicled [] .nil t⟩

end Course

/-- Fresh until a supply has come to some state is fresh until it comes to an
earlier one. -/
theorem Supply.Fresh.anti {known : Token → Prop} {s last earlier : Supply}
    (h : Supply.Fresh known s last) (hle : earlier.used ≤ last.used) :
    Supply.Fresh known s earlier :=
  fun i hi hlt => h i hi (hlt.trans_le hle)

namespace Engine

variable {fitter : Fitter} {plan : Plan} {e : Engine} {events : List Event}

/-- A net that was built, and then started with a token, told of finished
activities, paused and resumed in any order, with all that it has reported. The
identities that are drawn are new. -/
inductive Raised (fitter : Fitter) (plan : Plan) : List Event → Engine → Prop
  | built {e : Engine} (build : Engine.build fitter plan = .ok e) : Raised fitter plan [] e
  | called {e : Engine} {events : List Event} {fuel : Nat} {s : Supply} {call : Call} {run : Run}
      (before : Raised fitter plan events e) (starts : ∀ t, call = .start t → t.Proper)
      (answers : e.answer fuel s call = some run)
      (fresh : Supply.Fresh (e.opened call).Mentions s run.supply) :
    Raised fitter plan (events ++ run.events) run.engine
  | paused {e : Engine} {events : List Event} (before : Raised fitter plan events e)
      (now : Timestamp) : Raised fitter plan events (e.pause now).1

theorem Raised.reachable (h : Raised fitter plan events e) :
    Reachable World.careful fitter plan e := by
  induction h with
  | built build => exact .built build
  | called _ starts answers fresh ih => exact .called ih starts answers fresh
  | paused _ now ih => exact .paused now ih

/-- Pausing leaves all tokens where they are. -/
theorem Chronicled.hushes {past : List Deed} (h : e.Chronicled past) {now : Timestamp}
    {next : Status} {slots : List Slot} (hslots : List.Forall₂ (Slot.Hushes now) e.slots slots) :
    Engine.Chronicled { e with status := next, slots } past := by
  have hwork : Engine.work { e with status := next, slots } = e.work := by
    have htaken : slots.map (·.transition.taken) = e.slots.map (·.transition.taken) := by
      rw [← List.forall₂_eq_eq_eq, List.forall₂_map_left_iff, List.forall₂_map_right_iff]
      exact hslots.flip.imp fun slot' slot hhush => hhush.taken
    rw [work_eq, work_eq]
    simp only [List.flatMap_def, htaken]
  have hsteps : (Engine.outline { e with status := next, slots }).slots = e.outline.slots :=
    Slot.Hushes.outlines hslots
  unfold Chronicled
  rw [hwork, hsteps]
  exact h

theorem Chronicled.pause {past : List Deed} (h : e.Chronicled past) (now : Timestamp) :
    (e.pause now).1.Chronicled past :=
  keeps_pause (P := (·.Chronicled past)) h now fun _ _ hslots => h.hushes hslots

theorem Raised.orderly (hf : fitter.Regular) (h : Raised fitter plan events e) :
    e.Throughout (Orderly Siblings) := by
  induction h with
  | built build =>
    have hb := built_of_build build
    exact .intro hb.orderly fun slot hs nest t child ht => absurd ht (hb.vacant hs nest t child)
  | @called e _ _ s call run before starts answers _ ih =>
    have hsteady := before.reachable.steady hf
    rcases hsteady.answer hf answers with ⟨f, -, rfl⟩ | ⟨hopens, hproper⟩
    · exact ih
    · obtain ⟨lore, hcourse⟩ := hproper.course
      have hstart := hsteady.opened ih (fun hbuild => (built_of_build hbuild).entered_orderly) call
      exact (hcourse.orderly siblings_lasting hf (hopens.fits.and hstart)).imp fun e he => he.2
  | paused _ now ih => exact orderly_pause ih now

/-- What a call sets to work can be relied on until the call is answered. -/
theorem Raised.steadfast (hf : fitter.Regular) (h : Raised fitter plan events e) {s last : Supply}
    {call : Call} (starts : ∀ t, call = .start t → t.Proper)
    (fits : (e.opened call).Throughout (Fits fitter))
    (fresh : Supply.Fresh (e.opened call).Mentions s last) :
    Scene.Steadfast fitter last ⟨e.opened call, s, (e.opened call).lore⟩ := by
  have hsteady := h.reachable.steady hf
  have hcoherent := ((h.reachable.straight hf).opened hsteady starts).coherent
  exact ⟨sound_lore fits s, ⟨hcoherent, fresh⟩, hsteady.opened (h.orderly hf)
    (fun hbuild => (built_of_build hbuild).entered_orderly) call⟩

/-- What a call sets to work has a chronicle like the net that it is put to. -/
theorem Chronicled.opened (hsteady : e.Steady fitter plan) {past : List Deed}
    (h : e.Chronicled past) (call : Call) : ∃ begun, (e.opened call).Chronicled (begun ++ past) ∧
      begun.reverse.filterMap Deed.step? = [] := by
  rcases opened_cases e call with hsame | ⟨t, -, hcreated, hentered⟩
  · rw [hsame]
    exact ⟨[], h, rfl⟩
  · have hb := built_of_build (hsteady.created hcreated)
    have hnone : Chronicle e.outline.slots past 0 := hb.work ▸ h
    rw [hentered]
    exact ⟨[.enter t], hb.entered_chronicled past hnone t, rfl⟩

/-- A net and the nets within it hold their tokens by chronicles, and that of the net
itself lists the firings that it has reported. -/
theorem Raised.chronicled (hf : fitter.Regular) (h : Raised fitter plan events e) :
    (∃ past, e.Chronicled past ∧
      past.reverse.filterMap Deed.step? = events.filterMap Event.own?) ∧
    e.Throughout fun e => ∃ past, e.Chronicled past := by
  induction h with
  | @built e build =>
    have hb := built_of_build build
    have hnone : e.Chronicled [] := by
      unfold Chronicled
      rw [hb.work]
      exact .nil
    exact ⟨⟨[], hnone, rfl⟩,
      .intro ⟨[], hnone⟩ fun slot hs nest t child ht => absurd ht (hb.vacant hs nest t child)⟩
  | @called e events _ s call run before starts answers fresh ih =>
    obtain ⟨⟨past, hpast, hevents⟩, hall⟩ := ih
    have hsteady := before.reachable.steady hf
    rcases hsteady.answer hf answers with ⟨f, -, rfl⟩ | ⟨hopens, hproper⟩
    · rw [List.append_nil]
      exact ⟨⟨past, hpast, hevents⟩, hall⟩
    · obtain ⟨lore, hcourse⟩ := hproper.course
      have hstart := before.steadfast hf starts hopens.fits fresh
      obtain ⟨begun, hbegun, hsilent⟩ := hpast.opened hsteady call
      obtain ⟨more, hmore, hlater⟩ := hcourse.chronicled hf le_rfl hstart hbegun
      refine ⟨⟨_, hmore, ?_⟩, hcourse.chronicles hf le_rfl hstart (hsteady.opened hall
        (fun hbuild t => ⟨_, (built_of_build hbuild).entered_chronicled [] .nil t⟩) call)⟩
      rw [List.reverse_append, List.reverse_append, List.filterMap_append, List.filterMap_append,
        List.filterMap_append, hevents, hsilent, hlater, List.append_nil]
  | paused _ now ih =>
    obtain ⟨⟨past, hpast, hevents⟩, hall⟩ := ih
    exact ⟨⟨past, hpast.pause now, hevents⟩,
      pause_keeps hall now fun _ _ _ hslots ⟨past, hpast⟩ => ⟨past, hpast.hushes hslots⟩⟩

end Engine
end RecipeNet
