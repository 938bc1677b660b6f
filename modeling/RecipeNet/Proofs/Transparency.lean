import RecipeNet.Proofs.Payload
import RecipeNet.Proofs.Restored
import RecipeNet.Proofs.Wrapped

/-!
Nesting is transparent. A net that does nothing but run another one for a token answers
whatever it is asked as that other net alone would, started with a token of its own that
carries the same: with the same results, in the same states, and with the same reports under
longer addresses. Only identities differ, one for one.
-/

namespace RecipeNet

namespace Wrapping

/-- What can be seen of a net around, beside what can be seen of a net within. -/
structure Mimics (x : Wrapping) (w : Plan) (t : Token) (before : List Event)
    (inside outside : Outcome) : Prop where
  result : outside.result = inside.result
  status : outside.engine.status = inside.engine.status
  haltedBy : outside.engine.haltedBy = inside.engine.haltedBy
  ends : ∀ (i : Nat) (place stop : PlaceSpec), w.terminals[i]? = some place →
    (x.plan w).terminals[i]? = some stop →
    ((inside.engine.status = .completed ∧ ∃ u, inside.engine.completion = some (place.id, u)) ↔
      outside.engine.status = .completed ∧ outside.engine.completion = some (stop.id, t))
  events : ∃ later, outside.events = before ++ later ∧
    List.Forall₂ (x.Tells w t) inside.events later

/-- What comes of a start and of all that is asked then. -/
inductive Alike (x : Wrapping) (w : Plan) (t : Token) : List Outcome → List Outcome → Prop
  | intro {first first' : Outcome} {rest rest' : List Outcome}
      (start : x.Mimics w t [.fired (.ofStep x.step)] first first')
      (later : List.Forall₂ (x.Mimics w t []) rest rest') :
    Alike x w t (first :: rest) (first' :: rest')

variable {x : Wrapping} {w : Plan} {t : Token} {inner outer : Engine} {run run' : Run}
  {before : List Event}

theorem Around.haltedBy (h : x.Around w t inner outer) : outer.haltedBy = inner.haltedBy := by
  rcases h with h | h
  · exact h.haltedBy
  · exact h.haltedBy

/-- Places of distinct ids are at the same position if their ids are the same. -/
theorem position_of_id {places : List PlaceSpec} (distinct : (places.map (·.id)).Nodup) {i j : Nat}
    {place other : PlaceSpec} (hi : places[i]? = some place) (hj : places[j]? = some other)
    (hid : place.id = other.id) : i = j := by
  obtain rfl := List.inj_on_of_nodup_map distinct (List.mem_of_getElem? hi) (List.mem_of_getElem? hj) hid
  obtain ⟨hlt, -⟩ := List.getElem?_eq_some_iff.1 hi
  exact (List.getElem?_inj hlt (List.Nodup.of_map _ distinct)).1 (hi.trans hj.symm)

/-- The ends that nets complete in belong together. -/
theorem Around.ends (h : x.Around w t inner outer) (suits : x.Suits w) (sound : w.flaws = []) {i : Nat}
    {place stop : PlaceSpec} (hplace : w.terminals[i]? = some place)
    (hstop : (x.plan w).terminals[i]? = some stop) :
    (inner.status = .completed ∧ ∃ u, inner.completion = some (place.id, u)) ↔
      outer.status = .completed ∧ outer.completion = some (stop.id, t) := by
  rcases h with h | h
  · constructor
    · rintro ⟨-, u, hnone⟩
      cases h.inside.symm.trans hnone
    · rintro ⟨-, hnone⟩
      cases h.outside.symm.trans hnone
  obtain ⟨j, place', stop', u, hplace', hstop', hinside, houtside⟩ := h.place
  constructor
  · rintro ⟨-, v, hplaced⟩
    obtain ⟨hid, -⟩ := Prod.mk.inj (Option.some.inj (hinside.symm.trans hplaced))
    obtain rfl := position_of_id (Plan.distinct_terminals sound) hplace' hplace hid
    obtain rfl := Option.some.inj (hstop.symm.trans hstop')
    exact ⟨h.outside, houtside⟩
  · rintro ⟨-, hplaced⟩
    obtain ⟨hid, -⟩ := Prod.mk.inj (Option.some.inj (houtside.symm.trans hplaced))
    obtain rfl := position_of_id (Plan.distinct_terminals (suits.sound sound)) hstop' hstop hid
    obtain rfl := Option.some.inj (hplace.symm.trans hplace')
    exact ⟨h.inside, u, hinside⟩

theorem Follows.mimics (h : x.Follows w t before run run') (suits : x.Suits w) (sound : w.flaws = []) :
    x.Mimics w t before run.outcome run'.outcome :=
  ⟨h.result, h.engine.status, h.engine.haltedBy,
    fun _ _ _ hplace hstop => h.engine.ends suits sound hplace hstop, h.events⟩

end Wrapping

namespace Engine

variable {fitter : Fitter} {plan : Plan} {e : Engine} {fuel : Nat} {s : Supply}

theorem Steady.met (hf : fitter.Regular) (h : e.Steady fitter plan) {ask : Ask} {run : Run}
    (hrun : e.met fuel s ask = some run) : run.engine.Steady fitter plan := by
  cases ask with
  | call call => exact h.called hf hrun
  | pause now =>
    obtain rfl := Option.some.inj hrun
    exact h.pause now

end Engine

namespace Wrapping

variable {x : Wrapping} {w : Plan} {t : Token} {inner outer : Engine} {run run' : Run}
  {before : List Event} {fuel : Nat} {s last : Supply} {asks : List Ask}
  {outcomes outcomes' : List Outcome}

/-- What is asked one after the other of a net within is answered by the net around. -/
theorem Around.asked (h : x.Around w t inner outer) (suits : x.Suits w) (sound : w.flaws = [])
    (steady : inner.Steady .standard w) (later : ∀ ask ∈ asks, ask.Later)
    (hasked : inner.asked fuel s asks = some (outcomes, last)) :
    ∃ outcomes', outer.asked (fuel + 1) s (asks.map (Ask.within x.step)) = some (outcomes', last) ∧
      List.Forall₂ (x.Mimics w t []) outcomes outcomes' := by
  induction asks generalizing inner outer s outcomes with
  | nil =>
    cases hasked
    exact ⟨[], rfl, .nil⟩
  | cons ask rest ih =>
    obtain ⟨run, more, hrun, hmore, rfl⟩ := Engine.asked_cons.1 hasked
    obtain ⟨hask, hasks⟩ := List.forall_mem_cons.1 later
    obtain ⟨run', hfollows, hmet⟩ := h.follows_met suits sound steady hask hrun
    have hsteady := steady.met Fitter.standard_regular hrun
    obtain ⟨more', hmore', hall⟩ := ih hfollows.engine hsteady hasks hmore
    rw [← hfollows.supply] at hmore'
    exact ⟨run'.outcome :: more', Engine.asked_cons.2 ⟨run', more', hmet, hmore', rfl⟩,
      .cons (hfollows.mimics suits sound) hall⟩

/-- The net within answers whatever the net around does. -/
theorem Around.asked_inside (h : x.Around w t inner outer) (suits : x.Suits w) (sound : w.flaws = [])
    (steady : inner.Steady .standard w) (later : ∀ ask ∈ asks, ask.Later)
    (hasked : outer.asked fuel s (asks.map (Ask.within x.step)) = some (outcomes', last)) :
    ∃ outcomes, inner.asked (fuel + 1) s asks = some (outcomes, last) := by
  induction asks generalizing inner outer s outcomes' with
  | nil =>
    cases hasked
    exact ⟨[], rfl⟩
  | cons ask rest ih =>
    obtain ⟨run', more', hrun', hmore', rfl⟩ := Engine.asked_cons.1 hasked
    obtain ⟨hask, hasks⟩ := List.forall_mem_cons.1 later
    obtain ⟨run, hrun⟩ := h.answers hask hrun'
    obtain ⟨other, hfollows, hmet⟩ := h.follows_met suits sound steady hask hrun
    have hagain := Engine.met_mono (show fuel ≤ fuel + 1 + 1 by omega) hrun'
    obtain rfl : other = run' := Option.some.inj (hmet.symm.trans hagain)
    have hsteady := steady.met Fitter.standard_regular hrun
    rw [hfollows.supply] at hmore'
    obtain ⟨more, hmore⟩ := ih hfollows.engine hsteady hasks hmore'
    exact ⟨run.outcome :: more, Engine.asked_cons.2 ⟨run, more, hrun, hmore, rfl⟩⟩

/-- A net that runs another one is started, and asked some things then. -/
theorem Suits.asked (suits : x.Suits w) (sound : w.flaws = [])
    (build : Engine.build .standard w = .ok inner) (build' : Engine.build .standard (x.plan w) = .ok outer)
    (later : ∀ ask ∈ asks, ask.Later)
    (hasked : inner.asked fuel (s.skip 1) (.call (.start (startToken t s)) :: asks) =
      some (outcomes, last)) :
    ∃ outcomes', outer.asked (fuel + 1) s (.call (.start t) :: asks.map (Ask.within x.step)) =
      some (outcomes', last) ∧ x.Alike w t outcomes outcomes' := by
  obtain ⟨run, more, hrun, hmore, rfl⟩ := Engine.asked_cons.1 hasked
  obtain ⟨run', hfollows, hmet⟩ := suits.follows_start sound (Engine.built_of_build build') build hrun
  have hsteady := (Engine.Steady.of_build build).met Fitter.standard_regular hrun
  obtain ⟨more', hmore', hall⟩ := hfollows.engine.asked suits sound hsteady later hmore
  rw [← hfollows.supply] at hmore'
  exact ⟨run'.outcome :: more', Engine.asked_cons.2 ⟨run', more', hmet, hmore', rfl⟩,
    .intro (hfollows.mimics suits sound) hall⟩

theorem Suits.asked_inside (suits : x.Suits w) (sound : w.flaws = [])
    (build : Engine.build .standard w = .ok inner) (build' : Engine.build .standard (x.plan w) = .ok outer)
    (later : ∀ ask ∈ asks, ask.Later)
    (hasked : outer.asked fuel s (.call (.start t) :: asks.map (Ask.within x.step)) =
      some (outcomes', last)) :
    ∃ outcomes, inner.asked (fuel + 1) (s.skip 1) (.call (.start (startToken t s)) :: asks) =
      some (outcomes, last) := by
  obtain ⟨run', more', hrun', hmore', rfl⟩ := Engine.asked_cons.1 hasked
  have hbuilt := Engine.built_of_build build'
  obtain ⟨run, hrun⟩ := suits.starts hbuilt build hrun'
  obtain ⟨other, hfollows, hmet⟩ := suits.follows_start sound hbuilt build hrun
  have hagain := Engine.met_mono (show fuel ≤ fuel + 1 + 1 by omega) hrun'
  obtain rfl : other = run' := Option.some.inj (hmet.symm.trans hagain)
  have hsteady := (Engine.Steady.of_build build).called Fitter.standard_regular hrun
  rw [hfollows.supply] at hmore'
  obtain ⟨more, hmore⟩ := hfollows.engine.asked_inside suits sound hsteady later hmore'
  exact ⟨run.outcome :: more, Engine.asked_cons.2 ⟨run, more, hrun, hmore, rfl⟩⟩

end Wrapping

section

variable {ρ : Equiv.Perm TokenId}

theorem Ask.rename_later {ask : Ask} (h : ask.Later) : (ask.rename ρ).Later := by
  cases ask with
  | call call => cases call <;> exact h
  | pause now => exact h

theorem Ask.rename_symm (ask : Ask) : (ask.rename ρ).rename ρ.symm = ask := by
  cases ask with
  | call call => cases call <;> simp [rename, Engine.Call.rename]
  | pause now => rfl

theorem Supply.Replaces.symm {s s' : Supply} {n : Nat} (h : Replaces ρ n s s') :
    Replaces ρ.symm n s' s := by
  intro i hi
  rw [h i hi, Equiv.symm_apply_apply]

/-- A new net knows of no identities. -/
theorem Engine.rename_new {plan : Plan} {e : Engine} (h : build .standard plan = .ok e) :
    e.rename ρ = e := by
  have hbuild := rename_build (ρ := ρ) .standard plan
  rw [Fitter.rename_standard, h] at hbuild
  exact (Except.ok.inj hbuild).symm

/-- Identities for a start token and for what is drawn after it, among those that another
supply gives. -/
def Translates (ρ : Equiv.Perm TokenId) (u : Token) (s : Supply) (n : Nat) (s' : Supply) : Prop :=
  ρ u.id = s'.draw s'.used ∧ s.Replaces ρ n (s'.skip 1)

/-- New identities can be translated into each other. -/
theorem exists_translation {u : Token} {s s' : Supply} {n : Nat}
    (fresh : Supply.Fresh (· = u) s (s.skip n))
    (fresh' : Supply.Fresh (fun _ => False) s' (s'.skip (n + 1))) :
    ∃ ρ, Translates ρ u s n s' := by
  have hplain : Supply.Fresh (fun _ => False) s (s.skip n) := fun i hi hlt =>
    ⟨fun _ hnone => hnone.elim, (fresh i hi hlt).2⟩
  have htail : Supply.Fresh (fun _ => False) (s'.skip 1) ((s'.skip 1).skip n) := by
    rw [Supply.skip_skip, Nat.add_comm]
    exact fresh'.skip 1
  obtain ⟨ρ, -, hreplaces⟩ := hplain.exists_replacement htail
  refine ⟨ρ.trans (Equiv.swap (ρ u.id) (s'.draw s'.used)), ?_, fun i hi => ?_⟩
  · rw [Equiv.trans_apply, Equiv.swap_apply_left]
  · have hat := hreplaces i hi
    have hlt : s.used + i < (s.skip n).used := Nat.add_lt_add_left hi s.used
    have hnew : ρ (s.draw (s.used + i)) ≠ ρ u.id := fun heq =>
      (fresh (s.used + i) (Nat.le_add_right _ _) hlt).1 u rfl (ρ.injective heq.symm)
    have hlt' : s'.used + 1 + i < (s'.skip (n + 1)).used := by
      show s'.used + 1 + i < s'.used + (n + 1)
      omega
    have hother : s'.draw (s'.used + 1 + i) ≠ s'.draw s'.used := fun heq =>
      (fresh' (s'.used + 1 + i) (by omega) hlt').2 s'.used le_rfl (by omega) heq.symm
    have hkept : ρ (s.draw (s.used + i)) ≠ s'.draw s'.used := hat ▸ hother
    rw [Equiv.trans_apply, Equiv.swap_apply_of_ne_of_ne hnew hkept, hat]

namespace Wrapping

variable {x : Wrapping} {w : Plan} {t u : Token}

theorem rename_startToken {s s' : Supply} {n : Nat} (whole : u.parent = none)
    (carries : u.payload = t.effectivePayload) (translates : Translates ρ u s n s') :
    u.rename ρ = startToken t s' := by
  obtain ⟨id, payload, parent⟩ := u
  obtain rfl : parent = none := whole
  obtain rfl : payload = _ := carries
  exact congrArg (Token.mk · _ none) translates.1

/-- A new net that is started answers alike with other identities. -/
theorem asked_rename {plan : Plan} {e : Engine} (build : Engine.build .standard plan = .ok e)
    {fuel : Nat} {s last : Supply} {asks : List Ask} {outcomes : List Outcome}
    (hasked : e.asked fuel s (.call (.start u) :: asks) = some (outcomes, last)) :
    ∃ n, last = s.skip n ∧ ∀ s', s.Replaces ρ n s' →
      e.asked fuel s' (.call (.start (u.rename ρ)) :: asks.map (Ask.rename ρ)) =
        some (outcomes.map (Outcome.rename ρ), s'.skip n) := by
  have hmirror := Engine.mirrors_asked (ρ := ρ) fuel (.call (.start u) :: asks) e s _ hasked
  rw [Engine.rename_new build] at hmirror
  exact hmirror

/-- Running a sound plan within another one changes nothing but the addresses and the names of
the ends. A net of the plan that is started with a whole token and a net of the plan around it
that is started with any token of the same payload give the same answers, whatever else is
asked of both, if the identities that are asked for are those that correspond. -/
theorem nesting_transparent (suits : x.Suits w) (valid : w.validate = .ok ())
    (whole : u.parent = none) (carries : u.payload = t.effectivePayload) :
    ∃ inner outer, Engine.build .standard w = .ok inner ∧
    Engine.build .standard (x.plan w) = .ok outer ∧ ∀ s s' : Supply,
      (∀ n, Supply.Fresh (· = u) s (s.skip n) →
        Supply.Fresh (fun _ => False) s' (s'.skip (n + 1)) → ∃ ρ, Translates ρ u s n s') ∧
      ∀ ρ asks, (∀ ask ∈ asks, ask.Later) → ∀ fuel,
        (∀ outcomes last, inner.asked fuel s (.call (.start u) :: asks) = some (outcomes, last) →
          ∃ n, last = s.skip n ∧ (Translates ρ u s n s' → ∃ outcomes',
            outer.asked (fuel + 1) s' (.call (.start t) ::
              asks.map fun ask => (ask.rename ρ).within x.step) =
                some (outcomes', s'.skip (n + 1)) ∧
            x.Alike w t (outcomes.map (Outcome.rename ρ)) outcomes')) ∧
        ∀ outcomes' last', outer.asked fuel s' (.call (.start t) ::
            asks.map fun ask => (ask.rename ρ).within x.step) = some (outcomes', last') →
          ∃ n, last' = s'.skip (n + 1) ∧ (Translates ρ u s n s' → ∃ outcomes,
            inner.asked (fuel + 1) s (.call (.start u) :: asks) = some (outcomes, s.skip n) ∧
            x.Alike w t (outcomes.map (Outcome.rename ρ)) outcomes') := by
  have sound := Plan.validate_ok.1 valid
  obtain ⟨inner, hbuild⟩ := Engine.build_isOk Fitter.standard_regular sound
  obtain ⟨outer, hbuild'⟩ := Engine.build_isOk Fitter.standard_regular (suits.sound sound)
  refine ⟨inner, outer, hbuild, hbuild', fun s s' => ⟨fun n => exists_translation, ?_⟩⟩
  intro ρ asks later fuel
  have hlater : ∀ ask ∈ asks.map (Ask.rename ρ), ask.Later := fun ask hask => by
    obtain ⟨other, hother, rfl⟩ := List.mem_map.1 hask
    exact Ask.rename_later (later other hother)
  have hasks : asks.map (fun ask => (ask.rename ρ).within x.step) =
      (asks.map (Ask.rename ρ)).map (Ask.within x.step) := by
    rw [List.map_map]
    rfl
  -- What is answered within is answered around it, when both have the same identities.
  have hforth : ∀ {fuel outcomes n}, inner.asked fuel s (.call (.start u) :: asks) =
      some (outcomes, s.skip n) → Translates ρ u s n s' → ∃ outcomes',
        outer.asked (fuel + 1) s' (.call (.start t) ::
          asks.map fun ask => (ask.rename ρ).within x.step) = some (outcomes', s'.skip (n + 1)) ∧
        x.Alike w t (outcomes.map (Outcome.rename ρ)) outcomes' := by
    intro fuel outcomes n hasked translates
    obtain ⟨m, hm, hrenamed⟩ := asked_rename (ρ := ρ) hbuild hasked
    obtain rfl : n = m := Nat.add_left_cancel (congrArg Supply.used hm)
    have hother := hrenamed (s'.skip 1) translates.2
    rw [rename_startToken whole carries translates, Supply.skip_skip, Nat.add_comm] at hother
    rw [hasks]
    exact suits.asked sound hbuild hbuild' hlater hother
  refine ⟨fun outcomes last hasked => ?_, fun outcomes' last' hasked => ?_⟩
  · obtain ⟨n, rfl, -⟩ := asked_rename (ρ := ρ) hbuild hasked
    exact ⟨n, rfl, hforth hasked⟩
  · rw [hasks] at hasked
    obtain ⟨found, hfound⟩ := suits.asked_inside sound hbuild hbuild' hlater hasked
    obtain ⟨n, rfl, hrenamed⟩ := asked_rename (ρ := ρ.symm) hbuild hfound
    refine ⟨n, by rw [Supply.skip_skip, Nat.add_comm], fun translates => ?_⟩
    have hback := hrenamed s translates.2.symm
    have hstart : (startToken t s').rename ρ.symm = u := by
      rw [← rename_startToken whole carries translates, Token.rename_symm]
    have hsame : (asks.map (Ask.rename ρ)).map (Ask.rename ρ.symm) = asks := by
      rw [List.map_map]
      exact (List.map_congr_left fun ask _ => ask.rename_symm).trans (List.map_id asks)
    rw [hstart, hsame] at hback
    obtain ⟨other, hother, halike⟩ := hforth hback translates
    have hagain := Engine.asked_mono (show fuel ≤ fuel + 1 + 1 by omega) hasked
    rw [← hasks, hother] at hagain
    obtain ⟨rfl, -⟩ := Prod.mk.inj (Option.some.inj hagain)
    exact ⟨_, hback, halike⟩

end Wrapping

end

namespace Engine

def hatch : Wrapping where
  id := "hatch"
  version := 1
  step := "canteen"
  name := none
  start := { id := "door" }
  ends := [{ id := "exit" }]

/-- A meal at the canteen with a break. What is eaten first is served too late. -/
def visit : List Ask :=
  [.pause default, .call .resume, .call (.complete ["order", "cook"] ⟨3⟩ 0),
    .call (.complete ["eat"] ⟨2⟩ 0), .call (.complete ["eat"] ⟨1⟩ 0), .call .resume]

def stub : Token := ⟨⟨9⟩, none, some ticket⟩

/-- The meal is the same through the hatch. -/
theorem canteen_through_hatch : hatch.Suits canteen ∧ canteen.validate = .ok () ∧
    ticket.parent = none ∧ ticket.payload = stub.effectivePayload ∧
    ∃ (inner outer : Engine) (ρ : Equiv.Perm TokenId) (outcomes outcomes' : List Outcome),
      build .standard canteen = .ok inner ∧
      build .standard (hatch.plan canteen) = .ok outer ∧
      inner.asked 40 counting (.call (.start ticket) :: visit) = some (outcomes, counting.skip 4) ∧
      (outcomes.map (·.engine.status)) =
        [.running, .paused, .running, .running, .running, .completed, .completed] ∧
      outer.asked 41 counting (.call (.start stub) ::
        visit.map fun ask => (ask.rename ρ).within "canteen") = some (outcomes', counting.skip 5) ∧
      hatch.Alike canteen stub (outcomes.map (Outcome.rename ρ)) outcomes' := by
  have hsuits : hatch.Suits canteen := ⟨rfl, by decide, by decide, by decide⟩
  have hvalid : canteen.validate = .ok () := by decide +kernel
  have hlater : ∀ ask ∈ visit, ask.Later := by
    simp [visit, Ask.Later]
  have hfacts : ((build .standard canteen).toOption.bind fun e =>
      (e.asked 40 counting (.call (.start ticket) :: visit)).map fun x =>
        (x.2.used, x.1.map (·.engine.status))) =
      some (4, [.running, .paused, .running, .running, .running, .completed, .completed]) := by
    decide +kernel
  obtain ⟨inner, outer, hbuild, hbuild', htransparent⟩ :=
    Wrapping.nesting_transparent (u := ticket) (t := stub) hsuits hvalid rfl rfl
  rw [hbuild] at hfacts
  obtain ⟨⟨outcomes, last⟩, hasked, hfacts⟩ := Option.map_eq_some_iff.1 hfacts
  obtain ⟨hused, hstatus⟩ := Prod.mk.inj hfacts
  obtain ⟨htranslate, hanswers⟩ := htransparent counting counting
  have hfresh : Supply.Fresh (· = ticket) counting (counting.skip 4) := by
    have hapart := counting_apart hbuild (t := ticket) rfl rfl 4 (by decide)
    refine hapart.of_known ?_
    rintro _ rfl
    refine ⟨[], ?_⟩
    rw [opened_start (built_of_build hbuild).status]
    exact (built_of_build hbuild).mentions_start ticket
  have hfresh' : Supply.Fresh (fun _ => False) counting (counting.skip 5) :=
    (counting_fresh hbuild 5 (by decide)).of_known fun _ hnone => hnone.elim
  obtain ⟨ρ, htranslates⟩ := htranslate 4 hfresh hfresh'
  obtain ⟨n, rfl, hforth⟩ := (hanswers ρ visit hlater 40).1 outcomes last hasked
  obtain rfl : n = 4 := (Nat.zero_add n).symm.trans hused
  obtain ⟨outcomes', hasked', halike⟩ := hforth htranslates
  exact ⟨hsuits, hvalid, rfl, rfl, inner, outer, ρ, outcomes, outcomes', hbuild, hbuild', hasked,
    hstatus, hasked', halike⟩

end Engine
end RecipeNet
