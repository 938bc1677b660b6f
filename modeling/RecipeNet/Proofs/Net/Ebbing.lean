import Mathlib.Algebra.BigOperators.Group.Multiset.Basic
import RecipeNet.Proofs.Net.Seats
import RecipeNet.Proofs.Net.Tending
import RecipeNet.Proofs.Net.Within
import RecipeNet.Proofs.Plan.Acyclic

/-!
Cascades ebb away. In a net without cycles every token has a weight by its place, such that a
step that takes a token puts less into its outputs. What a step does to its net either moves
nothing and gives no notice, or it makes the tokens of the net lighter; so the notices come to
an end, and the tokens that wait for a nested net do so, too.
-/

namespace RecipeNet

def weigh (weight : Nat → Nat) (hs : List Holding) : Nat :=
  ((spread Holding.tokens hs).map fun x => weight x.1).sum

namespace Reaction

variable {weight : Nat → Nat} {r r' : Reaction} {taken made : List (Nat × Token)} {t : Token}

/-- A step that leads from places to lighter ones. -/
structure Downhill (weight : Nat → Nat) (r : Reaction) : Prop where
  range : ∀ p ∈ r.outputs, p < r.holdings.length
  falls : ∀ p ∈ r.inputs, (r.outputs.map weight).sum < weight p

theorem Downhill.follows (h : r.Downhill weight) (hfollows : r'.Follows r) : r'.Downhill weight where
  range := by
    rw [hfollows.outputs, holdings_length hfollows]
    exact h.range
  falls := by
    rw [hfollows.outputs, hfollows.inputs]
    exact h.falls

/-- Nothing has moved, or the tokens have become lighter. -/
def Drops (weight : Nat → Nat) (r' r : Reaction) : Prop :=
  (r'.holdings = r.holdings ∧ r'.produced = r.produced) ∨
    weigh weight r'.holdings < weigh weight r.holdings

/-- A firing that takes something takes more than could be put into all outputs at once. -/
theorem fire_weigh (h : r.Downhill weight) (takes : taken ≠ [])
    (hfire : r.fire taken made = (r', .ok true)) :
    ∃ placed : List (Nat × Token),
      List.Forall₂ (fun e p => r.outputs[e.1]? = some p.1 ∧ p.2 = e.2) made placed ∧
      weigh weight r'.holdings + (r.outputs.map weight).sum <
        weigh weight r.holdings + (placed.map fun x => weight x.1).sum := by
  obtain ⟨-, -, -, removed, placed, hremoved, hplaced, -, rest, hbefore, hafter⟩ :=
    fire_taken hfire h.range
  refine ⟨placed, hplaced, ?_⟩
  have hweight : (r.outputs.map weight).sum < (removed.map fun x => weight x.1).sum := by
    cases hremoved with
    | nil => exact absurd rfl takes
    | cons hfirst _ =>
      obtain ⟨hinput, -⟩ := hfirst
      rw [List.map_cons, List.sum_cons]
      exact Nat.lt_add_right _ (h.falls _ (List.mem_of_getElem? hinput))
  unfold weigh
  rw [hbefore, hafter, Multiset.map_add, Multiset.map_add, Multiset.sum_add, Multiset.sum_add,
    Multiset.map_coe, Multiset.map_coe, Multiset.sum_coe, Multiset.sum_coe]
  omega

/-- Products that are no heavier than all outputs together. -/
def Light (weight : Nat → Nat) (r : Reaction) (made : List (Nat × Token)) : Prop :=
  ∀ placed : List (Nat × Token),
    List.Forall₂ (fun e p => r.outputs[e.1]? = some p.1 ∧ p.2 = e.2) made placed →
    (placed.map fun x => weight x.1).sum ≤ (r.outputs.map weight).sum

theorem fire_drops (h : r.Downhill weight) (takes : taken ≠ []) (light : r.Light weight made)
    {fires : Bool} (hfire : r.fire taken made = (r', .ok fires)) : r'.Drops weight r := by
  cases fires with
  | false =>
    obtain ⟨rfl, -⟩ := fire_false hfire
    exact .inl ⟨rfl, rfl⟩
  | true =>
    obtain ⟨placed, hplaced, hlt⟩ := fire_weigh h takes hfire
    have hle := light placed hplaced
    exact .inr (by omega)

theorem light_none : r.Light weight [] := by
  intro placed hplaced
  cases hplaced
  exact Nat.zero_le _

theorem light_one (output : Nat) (t : Token) : r.Light weight [(output, t)] := by
  intro placed hplaced
  cases hplaced with
  | cons hfirst hrest =>
    cases hrest
    rw [List.map_singleton, List.sum_singleton]
    exact List.le_sum_of_mem (List.mem_map_of_mem (List.mem_of_getElem? hfirst.1))

/-- One token for each output. -/
theorem light_all {ids : List TokenId} (hlength : ids.length = r.outputs.length)
    (token : TokenId → Token) : r.Light weight (ids.zipIdx.map fun x => (x.2, token x.1)) := by
  intro placed hplaced
  have hplaces : placed.map (·.1) = r.outputs := by
    have hsame : placed.length = r.outputs.length := by
      rw [← hplaced.length_eq, List.length_map, List.length_zipIdx, hlength]
    refine List.ext_getElem? fun i => ?_
    rw [List.getElem?_map]
    cases hat : placed[i]? with
    | none =>
      have hout := List.getElem?_eq_none_iff.1 hat
      rw [hsame] at hout
      exact (List.getElem?_eq_none_iff.2 hout).symm
    | some p =>
      obtain ⟨e, he, houtput, -⟩ := forall₂_left_at hplaced hat
      rw [List.getElem?_map, List.getElem?_zipIdx] at he
      obtain ⟨x, hx, rfl⟩ := Option.map_eq_some_iff.1 he
      obtain ⟨id, -, rfl⟩ := Option.map_eq_some_iff.1 hx
      rw [Nat.zero_add] at houtput
      exact houtput.symm
  have hweights : (placed.map fun x => weight x.1) = r.outputs.map weight := by
    rw [← hplaces, List.map_map]
    rfl
  rw [hweights]

/-- A token that is put into an output. -/
theorem put_weigh (h : r.Downhill weight) {place : Nat} (hplace : place ∈ r.outputs) :
    weigh weight (r.put place t).holdings ≤
      weigh weight r.holdings + (r.outputs.map weight).sum := by
  unfold weigh
  rw [spread_put t (h.range place hplace), Multiset.map_cons, Multiset.sum_cons]
  have hle : weight place ≤ (r.outputs.map weight).sum :=
    List.le_sum_of_mem (List.mem_map_of_mem hplace)
  dsimp only
  omega

end Reaction

namespace Nest

variable {weight : Nat → Nat} {nest : Nest} {r r' : Reaction}

/-- Passing on reports adds at most one token, the one that the nested net runs for. -/
theorem absorb_weigh (h : r.Downhill weight) {running left : Option (Token × Engine)} {done : Bool}
    {result : Except Fault Bool} {events : List Event}
    (habsorb : nest.absorb running done r events = (r', left, result)) :
    r'.Follows r ∧ (left = running ∨ left = none) ∧
      weigh weight r'.holdings ≤ weigh weight r.holdings +
        (if running = none then 0 else (r.outputs.map weight).sum) := by
  induction events generalizing r running done with
  | nil =>
    cases habsorb
    exact ⟨.refl _, .inl rfl, Nat.le_add_right ..⟩
  | cons event rest ih =>
    by_cases hfinal : event.Final
    · cases event with
      | fired => cases hfinal
      | started => cases hfinal
      | completed place u =>
        simp only [absorb] at habsorb
        split at habsorb
        · cases habsorb
          exact ⟨.refl _, .inl rfl, Nat.le_add_right ..⟩
        split at habsorb
        · exact ih h habsorb
        rename_i t child
        split at habsorb
        · cases habsorb
          exact ⟨.refl _, .inr rfl, Nat.le_add_right ..⟩
        rename_i mid hproduce
        obtain ⟨target, htarget, rfl⟩ := Reaction.produce_ok hproduce
        have hput := Reaction.put_follows r target t
        obtain ⟨hfollows, hleft, hweigh⟩ := ih (h.follows hput) habsorb
        have hadded := Reaction.put_weigh (t := t) h (List.mem_of_getElem? htarget)
        rw [if_pos rfl, Nat.add_zero] at hweigh
        rw [if_neg (Option.some_ne_none _)]
        exact ⟨hfollows.trans hput, .inr (hleft.elim id id), hweigh.trans hadded⟩
    · rw [absorb_cons hfinal] at habsorb
      have hrelay : (relay r [event]).Follows r := ⟨rfl, rfl, rfl, rfl⟩
      obtain ⟨hfollows, hleft, hweigh⟩ := ih (h.follows hrelay) habsorb
      exact ⟨hfollows.trans hrelay, hleft, hweigh⟩

/-- What follows an operation on the nested net is settled at once, or it is up to the launch
for the next token. In between at most one token has been put into an output. -/
theorem settle_cases (h : r.Downhill weight) (nest : Nest) (t : Token) (run : Run) :
    ∃ r', r'.Follows r ∧
      weigh weight r'.holdings ≤ weigh weight r.holdings + (r.outputs.map weight).sum ∧
      ((∃ running result, (running = some (t, run.engine) ∨ running = none) ∧
        ∀ next, nest.settle next t run r = some ⟨r', nest.transition running, run.supply, result⟩) ∨
      ∃ waiting, ∀ next, nest.settle next t run r = next r' waiting run.supply) := by
  unfold settle
  generalize habsorb : nest.absorb (some (t, run.engine)) false r run.events = absorbed
  obtain ⟨r', left, result⟩ := absorbed
  obtain ⟨hfollows, hleft, hweigh⟩ := absorb_weigh h habsorb
  rw [if_neg (Option.some_ne_none _)] at hweigh
  refine ⟨r', hfollows, hweigh, ?_⟩
  cases result with
  | error f => exact .inl ⟨left, _, hleft, fun _ => rfl⟩
  | ok done =>
    cases run.result with
    | error f => exact .inl ⟨left, _, hleft, fun _ => rfl⟩
    | ok =>
      dsimp only
      cases r'.waiting? 0 with
      | none => exact .inl ⟨left, _, hleft, fun _ => rfl⟩
      | some waiting =>
        cases done with
        | false => exact .inl ⟨left, _, hleft, fun _ => rfl⟩
        | true => exact .inr ⟨waiting, fun _ => rfl⟩

end Nest

/-- A nested plan without cycles that goes down so many levels at most. -/
structure Nest.Shallow (levels : Nat) (nest : Nest) : Prop where
  regular : nest.fitter.Regular
  acyclic : nest.plan.Acyclic
  deep : nest.plan.levels ≤ levels

def Transition.Shallow (levels : Nat) (P : Engine → Prop) : Transition → Prop
  | .idle nest => nest.Shallow levels
  | .busy nest _ child => nest.Shallow levels ∧ P child
  | _ => True

namespace Engine

/-- A net in which cascades ebb away: its steps lead downhill, and so do those of the nets in
it, which are nested to some depth only. -/
def Ebbs : Nat → Engine → Prop
  | 0, _ => False
  | levels + 1, e => ∃ weight, ∀ slot ∈ e.slots,
    (e.reaction slot).Downhill weight ∧ slot.transition.Shallow levels (Ebbs levels)

def Slopes (weight : Nat → Nat) (levels : Nat) (e : Engine) : Prop :=
  ∀ slot ∈ e.slots, (e.reaction slot).Downhill weight ∧ slot.transition.Shallow levels (Ebbs levels)

end Engine

/-- A reaction after which the net still ebbs, and ebbs further. -/
structure Reacted.Ebbs (weight : Nat → Nat) (levels : Nat) (r : Reaction) (reacted : Reacted) :
    Prop where
  follows : reacted.reaction.Follows r
  shallow : reacted.transition.Shallow levels (Engine.Ebbs levels)
  drops : reacted.result = .ok () → reacted.reaction.Drops weight r

/-- Whatever notices there are, a net that ebbs works them off. -/
def Ebbing (levels : Nat) : Prop :=
  ∀ e : Engine, e.Ebbs levels → ∀ queue s, ∃ fuel run,
    Engine.driveWithin fuel levels e queue s = some run ∧ run.engine.Ebbs levels

variable {weight : Nat → Nat} {levels : Nat} {r : Reaction} {nest : Nest} {s : Supply} {t : Token}

theorem Nest.Shallow.transition {running : Option (Token × Engine)} (h : nest.Shallow levels)
    (inside : ∀ x ∈ running, x.2.Ebbs levels) :
    (nest.transition running).Shallow levels (Engine.Ebbs levels) := by
  cases running with
  | none => exact h
  | some x => exact ⟨h, inside x rfl⟩

namespace Engine

variable {e e' : Engine} {i : Nat} {slot : Slot} {reacted : Reacted}

noncomputable def slope (e : Engine) (i : Nat) : Nat :=
  (e.holdings[i]?.map fun hold => e.plan.weight hold.place.id).getD 0

theorem slope_placeIndices {ids : List String} {is : List Nat}
    (h : placeIndices e.outline.holdings ids = .ok is) : is.map e.slope = ids.map e.plan.weight := by
  have hall := placeIndices_ok h
  clear h
  induction hall with
  | nil => rfl
  | @cons id i ids is hfirst _ ih =>
    obtain ⟨hlt, hid, -⟩ := List.findIdx?_eq_some_iff_getElem.1 hfirst
    have hsame : e.slope i = e.plan.weight id := by
      simp only [outline, List.length_map] at hlt
      simp only [outline, List.getElem_map, Holding.new, beq_iff_eq] at hid
      rw [slope, List.getElem?_eq_getElem hlt, Option.map_some, Option.getD_some, hid]
    rw [List.map_cons, List.map_cons, hsame, ih]

/-- A net whose plan has no cycles ebbs. -/
theorem ebbs_of_fits {fitter : Fitter} (hf : fitter.Regular) (fits : e.Throughout (Fits fitter))
    (acyclic : e.plan.Acyclic) (deep : e.plan.levels ≤ levels) : e.Ebbs levels := by
  induction levels generalizing e with
  | zero => exact absurd deep (Nat.not_le.2 (Plan.levels_pos e.plan))
  | succ levels ih =>
    obtain ⟨free, nested⟩ := acyclic
    refine ⟨e.slope, fun slot hs => ?_⟩
    obtain ⟨step, hstep, -, hin, hout, hnest⟩ := fits.here.spec hf hs
    refine ⟨⟨(connectors_of_build fits.here.1 hs).2, fun p hp => ?_⟩, ?_⟩
    · obtain ⟨id, hid, hindex⟩ := exists_left_of_forall₂ (placeIndices_ok hin) hp
      have hone : [p].map e.slope = [id].map e.plan.weight :=
        slope_placeIndices (by simp [placeIndices, hindex, Except.map])
      have hfalls := Plan.weight_outputs free hstep hid
      rw [← slope_placeIndices hout, ← (List.cons.inj hone).1] at hfalls
      exact hfalls
    · have hshallow : ∀ nest, slot.transition.outline = .idle nest → nest.Shallow levels := by
        intro nest hidle
        obtain ⟨hfitter, results, hkind⟩ := hnest nest hidle
        refine ⟨hfitter ▸ hf, nested step hstep _ results hkind, ?_⟩
        exact Nat.le_of_lt_succ ((Plan.levels_lt hstep hkind).trans_le deep)
      cases htr : slot.transition with
      | idle nest => exact hshallow nest (by rw [htr]; rfl)
      | busy nest t child =>
        have hnested := hshallow nest (by rw [htr]; rfl)
        have hplan := fits.here.2 slot hs nest t child htr
        exact ⟨hnested, ih (fits.child hs htr) (hplan ▸ hnested.acyclic) (hplan ▸ hnested.deep)⟩
      | _ => trivial

/-- Only the positions and the transitions of steps count. -/
theorem Slopes.of_same (h : e.Slopes weight levels) (hlength : e'.holdings.length = e.holdings.length)
    (same : ∀ slot ∈ e'.slots, ∃ old ∈ e.slots, slot.inputs = old.inputs ∧
      slot.outputs = old.outputs ∧ (slot.transition = old.transition ∨
        slot.transition.Shallow levels (Ebbs levels))) : e'.Slopes weight levels := by
  intro slot hs
  obtain ⟨old, hold, hinputs, houtputs, htr⟩ := same slot hs
  obtain ⟨⟨hrange, hfalls⟩, hshallow⟩ := h old hold
  refine ⟨⟨?_, ?_⟩, htr.elim (fun heq => heq ▸ hshallow) id⟩
  · change ∀ p ∈ slot.outputs, p < e'.holdings.length
    rw [houtputs, hlength]
    exact hrange
  · change ∀ p ∈ slot.inputs, (slot.outputs.map weight).sum < weight p
    rw [hinputs, houtputs]
    exact hfalls

theorem Slopes.acceptAll (h : e.Slopes weight levels) (made : List (Nat × Token)) :
    (e.acceptAll made).1.Slopes weight levels := by
  refine h.of_same (congrArg List.length (holdings_acceptAll e made)) fun slot hs => ?_
  rw [slots_acceptAll] at hs
  exact ⟨slot, hs, rfl, rfl, .inl rfl⟩

theorem Slopes.activate (h : e.Slopes weight levels) (status : Status) (holdings : List Holding)
    (hlength : holdings.length = e.holdings.length) :
    ({ e.activate with status, holdings } : Engine).Slopes weight levels := by
  refine h.of_same hlength fun slot hs => ?_
  obtain ⟨old, hold, rfl⟩ := List.mem_map.1 hs
  exact ⟨old, hold, rfl, rfl, .inl rfl⟩

theorem Slopes.visited (h : e.Slopes weight levels)
    (follows : reacted.reaction.Follows (e.reaction slot))
    (shallow : reacted.transition.Shallow levels (Ebbs levels)) :
    (e.visited i reacted).engine.Slopes weight levels ∧
      (e.visited i reacted).engine.holdings = reacted.reaction.holdings := by
  have hnow : (e.withReacted i reacted).Slopes weight levels := by
    refine h.of_same (Reaction.holdings_length follows) fun slot' hs => ?_
    have hmem : slot' ∈ (e.become i reacted.reaction.holdings reacted.transition).slots := hs
    rcases mem_become hmem with hold | ⟨old, hold, rfl⟩
    · exact ⟨slot', hold, rfl, rfl, .inl rfl⟩
    · exact ⟨old, List.mem_of_getElem? hold, rfl, rfl, .inr shallow⟩
  obtain ⟨r, tr, s, result⟩ := reacted
  cases result with
  | error f =>
    refine ⟨hnow.of_same (congrArg List.length (holdings_halt _ f)) fun slot' hs => ?_,
      holdings_halt _ f⟩
    change slot' ∈ ((e.withReacted i ⟨r, tr, s, .error f⟩).halt f).slots at hs
    rw [slots_halt] at hs
    exact ⟨slot', hs, rfl, rfl, .inl rfl⟩
  | ok => exact ⟨hnow.acceptAll r.produced, holdings_acceptAll _ r.produced⟩

theorem ebbs_of_build (hnest : nest.Shallow levels) (h : build nest.fitter nest.plan = .ok e) :
    e.Ebbs levels := by
  have hb := built_of_build h
  have hfits : e.Throughout (Fits nest.fitter) := .intro (Fits.of_build h) fun slot hs nest' t child ht =>
    absurd ht (hb.vacant hs nest' t child)
  exact ebbs_of_fits hnest.regular hfits (hb.runs.symm ▸ hnest.acyclic) (hb.runs.symm ▸ hnest.deep)

theorem Slopes.enter (h : e.Slopes weight levels) {notices : List Notice} {events : List Event}
    (henter : e.enter t = .ok (e', notices, events)) : e'.Slopes weight levels := by
  by_cases hcreated : e.status = .created
  · rw [enter_created hcreated] at henter
    have hentered : (e.entered t).Slopes weight levels :=
      h.activate .running _ (List.length_modify ..)
    have haccepted := hentered.acceptAll [(e.startPlace, t)]
    rw [Except.ok.inj henter] at haccepted
    exact haccepted
  · rw [Engine.enter, if_neg hcreated] at henter
    cases henter

theorem Ebbs.enter (h : e.Ebbs levels) {notices : List Notice} {events : List Event}
    (henter : e.enter t = .ok (e', notices, events)) : e'.Ebbs levels := by
  cases levels with
  | zero => exact h.elim
  | succ levels =>
    obtain ⟨weight, hslopes⟩ := h
    exact ⟨weight, Slopes.enter hslopes henter⟩

end Engine

/-- However many tokens wait, the nets that are launched for them one after the other come to
an end. -/
theorem Nest.Shallow.launches (ebbing : Ebbing levels) (hnest : nest.Shallow levels)
    (h : r.Downhill weight) (t : Token) (s : Supply) : ∃ fuel reacted,
      nest.launch (Engine.driveWithin fuel levels) fuel r t s = some reacted ∧
        reacted.Ebbs weight levels r := by
  -- The induction is on the weight of what lies in places: a token weighs less when it comes out.
  induction hweigh : weigh weight r.holdings using Nat.strong_induction_on generalizing r t s with
  | h n ih =>
    subst hweigh
    generalize hfire : r.fire [(0, t)] [] = fired
    obtain ⟨mid, fault | _ | _⟩ := fired
    · refine ⟨1, ⟨mid, .idle nest, s, .error fault⟩, ?_, Reaction.fire_follows hfire, hnest, nofun⟩
      rw [Nest.launch, hfire]
    · obtain ⟨rfl, -⟩ := Reaction.fire_false hfire
      refine ⟨1, ⟨mid, .idle nest, s, .ok ()⟩, ?_, .refl mid, hnest, fun _ => .inl ⟨rfl, rfl⟩⟩
      rw [Nest.launch, hfire]
    have hfollows := Reaction.fire_follows hfire
    have hmid := h.follows hfollows
    obtain ⟨placed, hplaced, hlt⟩ := Reaction.fire_weigh h (List.cons_ne_nil _ _) hfire
    cases hplaced
    rw [List.map_nil, List.sum_nil, Nat.add_zero] at hlt
    generalize hbuild : Engine.build nest.fitter nest.plan = built
    cases built with
    | error fault =>
      refine ⟨1, ⟨mid, .idle nest, s, .error fault⟩, ?_, hfollows, hnest, nofun⟩
      rw [Nest.launch, hfire]
      dsimp only
      rw [hbuild]
    | ok child =>
      have hchild := Engine.ebbs_of_build hnest hbuild
      generalize henter : child.enter (Nest.startToken t s).1 = entered
      cases entered with
      | error fault =>
        refine ⟨1, ⟨mid, .busy nest t child, (Nest.startToken t s).2, .error fault⟩, ?_, hfollows,
          ⟨hnest, hchild⟩, nofun⟩
        rw [nest.launch_begin hfire hbuild s, Nest.begin, henter]
      | ok entered =>
        obtain ⟨child', notices, events⟩ := entered
        obtain ⟨fuel, run, hrun, hebbs⟩ :=
          ebbing child' (hchild.enter henter) notices (Nest.startToken t s).2
        obtain ⟨r', hfollows', hweigh, hsettle⟩ :=
          Nest.settle_cases hmid nest t (run.after events)
        have hdrops : weigh weight r'.holdings < weigh weight r.holdings := by
          rw [hfollows.outputs] at hweigh
          exact hweigh.trans_lt hlt
        have hend := hfollows'.trans hfollows
        have hstep : ∀ {more : Nat}, fuel ≤ more + 1 →
            nest.launch (Engine.driveWithin (more + 1) levels) (more + 1) r t s =
              nest.settle (nest.launch (Engine.driveWithin (more + 1) levels) more) t
                (run.after events) mid := by
          intro more hle
          rw [nest.launch_begin hfire hbuild s, Nest.begin, henter]
          dsimp only
          rw [Engine.driveWithin_mono hle levels hrun]
          rfl
        rcases hsettle with ⟨running, result, hrunning, hnow⟩ | ⟨waiting, hnext⟩
        · refine ⟨fuel + 1, ⟨r', nest.transition running, run.supply, result⟩, ?_, hend,
            hnest.transition ?_, fun _ => .inr hdrops⟩
          · rw [hstep (Nat.le_succ fuel), hnow]
            rfl
          · rintro x hx
            rcases hrunning with rfl | rfl
            · obtain rfl := Option.some.inj hx
              exact hebbs
            · cases hx
        · obtain ⟨later, reacted, hlater, hreacted⟩ :=
            ih _ hdrops (h.follows hend) waiting run.supply rfl
          refine ⟨max fuel later + 1, reacted, ?_, hreacted.follows.trans hend, hreacted.shallow,
            fun hok => .inr ?_⟩
          · rw [hstep ((Nat.le_max_left ..).trans (Nat.le_succ _)), hnext]
            exact Nest.launch_mono (Engine.driveWithin_mono
              ((Nat.le_max_right ..).trans (Nat.le_succ _)) levels) (Nat.le_max_right ..) hlater
          · rcases hreacted.drops hok with ⟨hsame, -⟩ | hless
            · rw [hsame]
              exact hdrops
            · exact hless.trans hdrops

namespace Reacted.Ebbs

variable {r' : Reaction} {tr : Transition} {taken made : List (Nat × Token)}

/-- A reaction that moves nothing. -/
theorem still (shallow : tr.Shallow levels (Engine.Ebbs levels)) (s : Supply)
    (result : Except Fault Unit) : Reacted.Ebbs weight levels r ⟨r, tr, s, result⟩ :=
  ⟨.refl r, shallow, fun _ => .inl ⟨rfl, rfl⟩⟩

theorem fired (h : r.Downhill weight) (takes : taken ≠ []) (light : r.Light weight made)
    {fires : Except Fault Bool} (hfire : r.fire taken made = (r', fires))
    (shallow : tr.Shallow levels (Engine.Ebbs levels)) (s : Supply) :
    Reacted.Ebbs weight levels r ⟨r', tr, s, discard fires⟩ := by
  refine ⟨Reaction.fire_follows hfire, shallow, fun hok => ?_⟩
  cases fires with
  | error fault => cases hok
  | ok fires => exact Reaction.fire_drops h takes light hfire

end Reacted.Ebbs

/-- What a join does about a notice. -/
theorem Join.arrive_ebbs (h : r.Downhill weight) (inputs : Nat) (pending : List Generation) (k : Nat)
    (t : Token) (s : Supply) : Reacted.Ebbs weight levels r
      ⟨(Join.arrive pending r k t).1, .join inputs (Join.arrive pending r k t).2.1, s,
        (Join.arrive pending r k t).2.2⟩ := by
  have hplain : ∀ others, (Transition.join inputs others).Shallow levels (Engine.Ebbs levels) :=
    fun _ => trivial
  have harrives := Join.arrives pending r k t
  generalize Join.arrive pending r k t = answer at harrives
  cases harrives with
  | aside | refused | noted => exact .still (hplain _) s _
  | @completed parent placed j slot g holds finds complete =>
    have htakes : ({ g with slots := g.slots.set slot (some t) } : Generation).siblings ≠ [] := by
      have hlt := (List.getElem?_eq_some_iff.1 finds.free).1
      exact List.ne_nil_of_mem (Generation.mem_siblings.2 (List.getElem?_set_self hlt))
    unfold Join.complete
    generalize hfire : r.fire _ _ = fired
    have hebbs : Reacted.Ebbs weight levels r
        ⟨fired.1, .join inputs pending, s, discard fired.2⟩ :=
      .fired h htakes (Reaction.light_one 0 g.parent) hfire (hplain pending) s
    obtain ⟨r', fault | _ | _⟩ := fired <;> exact ⟨hebbs.follows, hplain _, hebbs.drops⟩

/-- Every step comes to an end with a notice. -/
theorem Transition.Shallow.arrives (ebbing : Ebbing levels) (h : r.Downhill weight)
    {tr : Transition} (shallow : tr.Shallow levels (Engine.Ebbs levels)) (k : Nat) (t : Token)
    (s : Supply) : ∃ fuel reacted,
      tr.arrive (Engine.driveWithin fuel levels) fuel r k t s = some reacted ∧
        reacted.Ebbs weight levels r := by
  by_cases hholds : r.holds k t = true
  · cases tr with
    | pass output =>
      refine ⟨0, _, if_pos hholds, ?_⟩
      exact .fired h (List.cons_ne_nil _ _) (Reaction.light_one output t) rfl shallow s
    | split =>
      have hlength : (s.take r.outputs.length).1.length = r.outputs.length := by simp [Supply.take]
      have hlight : r.Light weight ((s.take r.outputs.length).1.zipIdx.map fun x =>
          (x.2, ⟨x.1, none, some t⟩)) := Reaction.light_all hlength fun id => ⟨id, none, some t⟩
      refine ⟨0, _, if_pos hholds, ?_⟩
      exact .fired h (List.cons_ne_nil (k, t) []) hlight rfl shallow _
    | join inputs pending => exact ⟨0, _, rfl, Join.arrive_ebbs h inputs pending k t s⟩
    | task activity held =>
      unfold Transition.arrive
      simp only [hholds, if_true]
      generalize hfire : r.fire [(k, t)] [] = fired
      obtain ⟨r', fault | _ | _⟩ := fired
      · refine ⟨0, _, rfl, ?_⟩
        exact .fired h (List.cons_ne_nil _ _) Reaction.light_none hfire shallow s
      · refine ⟨0, _, rfl, ?_⟩
        exact .fired h (List.cons_ne_nil _ _) Reaction.light_none hfire shallow s
      · refine ⟨0, _, rfl, ?_⟩
        have hebbs : Reacted.Ebbs weight levels r ⟨r', .task activity held, s, discard (.ok true)⟩ :=
          .fired h (List.cons_ne_nil _ _) Reaction.light_none hfire shallow s
        have hraised : (announce r' activity t).Follows r' := ⟨rfl, rfl, rfl, rfl⟩
        exact ⟨hraised.trans hebbs.follows, shallow, hebbs.drops⟩
    | routed rule seen =>
      unfold Transition.arrive
      simp only [hholds, if_true]
      have hseen : (Transition.routed rule (seen ++ [t])).Shallow levels (Engine.Ebbs levels) :=
        trivial
      cases rule seen t with
      | error reason => exact ⟨0, _, rfl, .still hseen s _⟩
      | ok output =>
        dsimp only
        by_cases hlt : output < r.outputs.length
        · rw [if_pos hlt]
          refine ⟨0, _, rfl, ?_⟩
          exact .fired h (List.cons_ne_nil _ _) (Reaction.light_one output t) rfl hseen s
        · rw [if_neg hlt]
          exact ⟨0, _, rfl, .still hseen s _⟩
    | idle nest =>
      obtain ⟨fuel, reacted, hlaunch, hebbs⟩ := Nest.Shallow.launches ebbing shallow h t s
      exact ⟨fuel, reacted, (if_pos hholds).trans hlaunch, hebbs⟩
    | busy nest u child => exact ⟨0, _, rfl, .still shallow s _⟩
  · cases tr with
    | join inputs pending => exact ⟨0, _, rfl, Join.arrive_ebbs h inputs pending k t s⟩
    | busy nest u child => exact ⟨0, _, rfl, .still shallow s _⟩
    | _ => exact ⟨0, _, if_neg hholds, .still shallow s _⟩

namespace Engine

variable {e : Engine} {queue : List Notice}

theorem visited_result (e : Engine) (i : Nat) (reacted : Reacted) :
    (e.visited i reacted).result = reacted.result := by
  obtain ⟨r, tr, s, result⟩ := reacted
  cases result <;> rfl

/-- A step that has put nothing into places gives no notice. -/
theorem visited_notices (i : Nat) {reacted : Reacted} (ok : reacted.result = .ok ())
    (none : reacted.reaction.produced = []) : (e.visited i reacted).notices = [] := by
  obtain ⟨r, tr, s, result⟩ := reacted
  obtain rfl : result = .ok () := ok
  change ((e.withReacted i ⟨r, tr, s, .ok ()⟩).acceptAll r.produced).2.1 = []
  rw [show r.produced = [] from none]
  rfl

/-- What follows a visit comes to an end if the notices do. -/
theorem Slopes.andThen {v : Visit} (h : v.engine.Slopes weight levels)
    (later : v.result = .ok () → ∃ fuel run, driveWithin fuel (levels + 1) v.engine
      (queue ++ v.notices) v.supply = some run ∧ run.engine.Slopes weight levels) :
    ∃ fuel run, v.andThen (driveWithin fuel (levels + 1)) queue = some run ∧
      run.engine.Slopes weight levels := by
  unfold Visit.andThen
  cases hresult : v.result with
  | error fault => exact ⟨0, ⟨v.engine, v.supply, v.events, .error fault⟩, rfl, h⟩
  | ok =>
    obtain ⟨fuel, run, hrun, hslopes⟩ := later hresult
    exact ⟨fuel, run.after v.events, Option.map_eq_some_iff.2 ⟨run, hrun, rfl⟩, hslopes⟩

/-- A net works off what it has been given notice of. The tokens become lighter, or else the
queue becomes shorter. -/
theorem Slopes.drives (ebbing : Ebbing levels) (h : e.Slopes weight levels) (queue : List Notice)
    (s : Supply) : ∃ fuel run, driveWithin fuel (levels + 1) e queue s = some run ∧
      run.engine.Slopes weight levels := by
  induction hweigh : weigh weight e.holdings using Nat.strong_induction_on generalizing e queue s with
  | h n outer =>
    induction queue generalizing e s with
    | nil => exact ⟨1, ⟨e, s, [], .ok ()⟩, rfl, h⟩
    | cons notice queue inner =>
      by_cases hrunning : e.status ≠ .running
      · exact ⟨1, ⟨e, s, [], .ok ()⟩, if_pos hrunning, h⟩
      cases hslot : e.slots[notice.slot]? with
      | none =>
        obtain ⟨fuel, run, hrun, hslopes⟩ := inner h s hweigh
        refine ⟨fuel + 1, run, ?_, hslopes⟩
        rw [driveWithin, attend, if_neg hrunning, hslot]
        exact hrun
      | some slot =>
        by_cases hactive : slot.phase ≠ .active
        · obtain ⟨fuel, run, hrun, hslopes⟩ := inner h s hweigh
          refine ⟨fuel + 1, run, ?_, hslopes⟩
          rw [driveWithin, attend, if_neg hrunning, hslot]
          exact (if_pos hactive).trans hrun
        obtain ⟨hdownhill, hshallow⟩ := h slot (List.mem_of_getElem? hslot)
        obtain ⟨fuel, reacted, harrive, hebbs⟩ :=
          hshallow.arrives ebbing hdownhill notice.input notice.token s
        obtain ⟨hvisited, hholdings⟩ := h.visited (i := notice.slot) hebbs.follows hebbs.shallow
        have hstep : ∀ {more : Nat}, fuel ≤ more →
            driveWithin (more + 1) (levels + 1) e (notice :: queue) s =
              (e.visited notice.slot reacted).andThen (driveWithin more (levels + 1)) queue := by
          intro more hle
          rw [driveWithin, attend, if_neg hrunning, hslot]
          dsimp only
          rw [if_neg hactive, Transition.arrive_mono (driveWithin_mono hle levels) hle harrive]
        have hresult : (e.visited notice.slot reacted).result = reacted.result :=
          visited_result e notice.slot reacted
        obtain ⟨more, run, hrun, hslopes⟩ : ∃ more run,
            (e.visited notice.slot reacted).andThen (driveWithin more (levels + 1)) queue = some run ∧
              run.engine.Slopes weight levels := by
          refine hvisited.andThen fun hok => ?_
          rw [hresult] at hok
          rcases hebbs.drops hok with ⟨hsame, hnone⟩ | hless
          · rw [visited_notices notice.slot hok hnone, List.append_nil]
            exact inner hvisited _ (by rw [hholdings, hsame]; exact hweigh)
          · exact outer _ (hweigh ▸ hless) hvisited _ _ (by rw [hholdings])
        refine ⟨max fuel more + 1, run, ?_, hslopes⟩
        rw [hstep (Nat.le_max_left ..)]
        exact andThen_mono (driveWithin_mono (Nat.le_max_right ..) (levels + 1)) hrun

end Engine
end RecipeNet
