import RecipeNet.Proofs.Reachable

/-!
Sound plans never go wrong. Whatever is asked of a net of a sound plan, in any
order, its positions stay in range at every depth, and what it can fail with is
a request that does not suit its state or a token that a join does not expect.
-/

namespace RecipeNet

inductive Fault.Unexpected : Fault → Prop
  | notSplit (step : String) (token : TokenId) : Unexpected (.unexpectedToken step token .notSplit)
  | taken (step : String) (token : TokenId) (input : Nat) (sibling parent : TokenId) :
    Unexpected (.unexpectedToken step token (.taken input sibling parent))

namespace Engine

/-- All positions of a net are those of its places, and a join has seats for all
its inputs. -/
structure InRange (e : Engine) : Prop where
  inputs : ∀ slot ∈ e.slots, ∀ p ∈ slot.inputs, p < e.holdings.length
  outputs : ∀ slot ∈ e.slots, ∀ p ∈ slot.outputs, p < e.holdings.length
  joins : ∀ slot ∈ e.slots, ∀ inputs pending, slot.transition = .join inputs pending →
    inputs = slot.inputs.length ∧ ∀ g ∈ pending, g.slots.length = inputs

inductive Call.Allows : Call → Fault → Prop
  | start (t : Token) (status : Status) : Allows (.start t) (.wrongState .start status)
  | resume (status : Status) : Allows .resume (.wrongState .resume status)
  | caller (path : List String) (token : TokenId) (output : Nat) (f : Fault)
      (isCaller : f.OfCaller output) : Allows (.complete path token output) f
  | unexpected (call : Call) (f : Fault) (isUnexpected : f.Unexpected) : Allows call f

def Seats (inputs : Nat) (g : Generation) : Prop := g.Full inputs ∧ g.Distinct

theorem seats_lasting : Generation.Lasting Seats :=
  Generation.full_lasting.and Generation.distinct_lasting

structure Secure (e : Engine) : Prop where
  fits : e.Fits .standard
  orderly : e.Orderly Seats
  faults : ∀ f, e.haltedBy = some f → f.Unexpected

variable {e : Engine}

theorem haltedBy_halt {f f' : Fault} (h : (e.halt f).haltedBy = some f') :
    f' = f ∨ e.haltedBy = some f' := by
  unfold halt at h
  by_cases hf : f.halts = true
  · rw [if_pos hf] at h
    exact .inl (Option.some.inj h).symm
  · rw [if_neg hf] at h
    exact .inr h

end Engine

open Engine in
/-- An act of a secure net leaves it secure. -/
theorem Act.secure {sc sc' : Scene} {events : List Event} (h : Act sc events sc')
    (hsc : sc.Throughout fun sc => sc.engine.Secure) : sc'.engine.Secure := by
  have hf := Fitter.standard_regular
  obtain ⟨hfits, horderly, hfaults⟩ := hsc.here
  refine ⟨h.fits hfits, h.orderly seats_lasting hf hfits horderly, ?_⟩
  cases h with
  | woken => exact hfaults
  | fired => exact hfaults
  | seated => exact hfaults
  | refreshed => exact hfaults
  | @botched _ _ slot inputs pending g _ _ _ _ running stands join isPending consume held =>
    -- Nobody sits in a generation twice, so a firing cannot stop half way.
    have hseats := horderly slot (List.mem_of_getElem? stands) _ _ join g
      (List.mem_of_getElem? isPending)
    have hok := hseats.2.consume held
    rw [consume] at hok
    cases hok
  | @refused _ _ slot inputs pending t k reason running stands join known holds refuses =>
    intro f hf'
    rcases haltedBy_halt hf' with rfl | hold
    · cases refuses with
      | whole => exact .notSplit _ _
      | narrow parent j g isSplit located isPending outside =>
        have hmem := List.mem_of_getElem? stands
        have hsuits := (hfits.slot hf hmem).suits
        rw [join] at hsuits
        have hseats := horderly slot hmem _ _ join g (List.mem_of_getElem? isPending)
        have hwidth : g.slots.length = inputs := hseats.1
        obtain ⟨place, hold, hk, -, -⟩ := Reaction.holds_iff.1 holds
        obtain ⟨hlt, -⟩ := List.getElem?_eq_some_iff.1 hk
        have hle := List.getElem?_eq_none_iff.1 outside
        change k < slot.inputs.length at hlt
        obtain ⟨hinputs, -⟩ := hsuits
        omega
      | taken => exact .taken _ _ _ _ _
    · exact hfaults f hold
  | balked running stands routed =>
    exact absurd routed (hfits.unrouted (List.mem_of_getElem? stands) _ _)
  | released => exact hfaults
  | closed => exact hfaults
  | announced => exact hfaults
  | ended => exact hfaults
  | inside => exact hfaults
  | sunk running stands busy halted halts =>
    intro f hf'
    rcases haltedBy_halt hf' with rfl | hold
    · exact (hsc.child (List.mem_of_getElem? stands) busy).here.faults _ halted
    · exact hfaults f hold

open Engine in
theorem Course.secure {sc sc' : Scene} {events : List Event} (h : Course sc events sc')
    (hsc : sc.engine.Throughout Secure) : sc'.engine.Throughout Secure := by
  refine throughout_scene (h.keeps (fun {a b _} act ha => ?_)
    (Scene.throughout_engine hsc sc.supply sc.lore))
  refine act.throughout (fun _ e lore lore' _ he => he) (fun act ha => act.secure ha) ?_ ha
  intro a slot nest t child hs hidle _ hbuild ha
  have hb := built_of_build hbuild
  refine ⟨Scene.fits_launched Fitter.standard_regular ha.here.fits hs hidle hbuild _,
    hb.entered_orderly _, fun f hf => ?_⟩
  cases hb.haltedBy.symm.trans hf

namespace Engine

variable {e : Engine} {plan : Plan}

/-- The joins of a snapshot list no token twice for a parent. -/
def Tidy (snapshot : Snapshot) : Prop :=
  ∀ step records, ⟨step, .join records⟩ ∈ snapshot.transitions →
    ∀ r ∈ records, (r.slots.filterMap id).Nodup

theorem Stocked.orderly {fitter : Fitter} {snapshot : Snapshot} (h : e.Stocked fitter snapshot)
    (htidy : Tidy snapshot) : e.Orderly Seats := by
  intro slot hs inputs pending htr g hg
  rcases h.joins slot hs inputs pending htr with rfl | ⟨hmem, hwidth⟩
  · cases hg
  · refine ⟨hwidth g hg, ?_⟩
    have hnodup := htidy _ _ hmem g.record (List.mem_map_of_mem hg)
    rw [Generation.record_ids] at hnodup
    exact hnodup

theorem Orderly.tidy (h : e.Orderly Seats) (now : Timestamp) : Tidy (e.captured now) := by
  intro step records hmem r hr
  obtain ⟨slot, hs, -, inputs, pending, htr, rfl⟩ := captured_join hmem
  obtain ⟨g, hg, rfl⟩ := List.mem_map.1 hr
  rw [Generation.record_ids]
  exact (h slot hs inputs pending htr g hg).2

/-- A world that only gives nets back what they once held. -/
def World.enclosed : World := ⟨fun _ => True, fun _ _ _ => True, fun _ => False⟩

theorem Reachable.seats (h : Reachable World.enclosed .standard plan e) :
    e.Throughout (Orderly Seats) :=
  h.orderly (A := Tidy) Fitter.standard_regular seats_lasting (fun _ hnone => False.elim hnone)
    (fun _ now he => he.tidy now) fun _ _ hs htidy => hs.orderly htidy

theorem inRange_of_fits (hfits : e.Fits .standard) (horderly : e.Orderly Seats) : e.InRange := by
  have hf := Fitter.standard_regular
  refine ⟨fun slot hs => (hfits.slot hf hs).inputs, fun slot hs => (hfits.slot hf hs).outputs, ?_⟩
  intro slot hs inputs pending htr
  have hsuits := (hfits.slot hf hs).suits
  rw [htr] at hsuits
  exact ⟨hsuits.1, fun g hg => (horderly slot hs inputs pending htr g hg).1⟩

/-- A sound plan gives a net, and the net never goes wrong. -/
theorem never_goes_wrong (sound : plan.validate = .ok ()) :
    (∃ e, build .standard plan = .ok e) ∧
    ∀ e, Reachable World.enclosed .standard plan e → e.Throughout InRange ∧
      ∀ fuel s call run, e.answer fuel s call = some run → ∀ f, run.result = .error f →
        call.Allows f := by
  have hf := Fitter.standard_regular
  refine ⟨build_isOk hf (Plan.validate_ok.1 sound), fun e h => ?_⟩
  have hsteady := h.steady hf
  have horderly := h.seats
  refine ⟨(hsteady.fits.and horderly).imp fun e he => inRange_of_fits he.1 he.2, ?_⟩
  intro fuel s call run hrun f hresult
  rcases hsteady.answer hf hrun with ⟨f', hrefusal, rfl⟩ | ⟨hopens, hproper⟩
  · obtain rfl := Except.error.inj hresult
    cases hrefusal with
    | start t => exact .start t _
    | complete path token output f caller => exact .caller path token output _ caller
    | resume => exact .resume _
  · obtain ⟨lore, hcourse⟩ := hproper.course
    have hstart := hsteady.opened horderly
      (fun hbuild => (built_of_build hbuild).entered_orderly) call
    have hsecure : (e.opened call).Throughout Secure := by
      refine ((hopens.fits.and hstart).and hopens.ongoing).imp fun e he => ?_
      refine ⟨he.1.1, he.1.2, fun f hf => ?_⟩
      cases he.2.haltedBy.symm.trans hf
    obtain ⟨-, -, hhalted⟩ := hproper.error f hresult
    have hend : run.engine.Throughout Secure := hcourse.secure hsecure
    exact .unexpected call f (hend.here.faults f hhalted)

/-- A plan that hands a work item to a kitchen, with a plan of its own, and serves it. -/
def kitchen : Plan where
  id := "kitchen"
  version := 1
  places := [{ id := "order", role := .start }, { id := "dish", role := .terminal }]
  steps := [⟨"cook", none, ["order"], ["dish"], .task "cook"⟩]

def dinner : Plan where
  id := "dinner"
  version := 1
  places := [{ id := "guest", role := .start }, { id := "table" },
    { id := "home", role := .terminal }]
  steps := [⟨"order", none, ["guest"], ["table"], .nested kitchen ⟨[("dish", 0)], by decide⟩⟩,
    ⟨"leave", none, ["table"], ["home"], .pass 0⟩]

/-- The dinner is on. Nothing is out of range, and whoever reports the dish at another output
than the one that the cook has is told so. -/
theorem dinner_never_goes_wrong : ∃ (e : Engine) (first second : Run),
    build .standard dinner = .ok e ∧ e.answer 40 serial (.start job) = some first ∧
    first.result = .ok () ∧ first.engine.Throughout InRange ∧
    first.engine.answer 40 first.supply (.complete ["order", "cook"] ⟨1⟩ 1) = some second ∧
    second.result = .error (.noSuchOutput "cook" 1 1) ∧ second.engine.Throughout InRange ∧
    Call.Allows (.complete ["order", "cook"] ⟨1⟩ 1) (.noSuchOutput "cook" 1 1) := by
  have sound : dinner.validate = .ok () := rfl
  obtain ⟨⟨e, hbuild⟩, hall⟩ := never_goes_wrong sound
  have hfacts : ((build .standard dinner).toOption.bind fun e =>
      (e.answer 40 serial (.start job)).bind fun first =>
        (first.engine.answer 40 first.supply (.complete ["order", "cook"] ⟨1⟩ 1)).map
          fun second => (first.result, second.result)) =
      some (.ok (), .error (.noSuchOutput "cook" 1 1)) := by
    decide +kernel
  rw [hbuild] at hfacts
  change (e.answer 40 serial (.start job)).bind _ = _ at hfacts
  obtain ⟨first, hfirst, hfacts⟩ := Option.bind_eq_some_iff.1 hfacts
  obtain ⟨second, hsecond, hfacts⟩ := Option.map_eq_some_iff.1 hfacts
  obtain ⟨hserved, hmistake⟩ := Prod.mk.inj hfacts
  have hon : Reachable World.enclosed .standard dinner first.engine :=
    .called (.built hbuild) (fun _ _ => trivial) hfirst trivial
  have hafter : Reachable World.enclosed .standard dinner second.engine :=
    .called hon (fun _ _ => trivial) hsecond trivial
  obtain ⟨hrange, hfaults⟩ := hall first.engine hon
  exact ⟨e, first, second, hbuild, hfirst, hserved, hrange, hsecond, hmistake,
    (hall second.engine hafter).1, hfaults 40 first.supply _ second hsecond _ hmistake⟩

end Engine
end RecipeNet
