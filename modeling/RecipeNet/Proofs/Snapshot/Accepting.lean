import RecipeNet.Proofs.Net.Marking
import RecipeNet.Proofs.Snapshot.Chains
import RecipeNet.Proofs.Snapshot.RoundTrip

/-!
When a new net takes in a snapshot that pausing has given. The table lists every
token after the one it was split from, so each chain is found again, whatever the
identities are; the records name places and steps of the plan and tokens of the
table. What can go wrong is only that a token is claimed twice.
-/

namespace RecipeNet

theorem exists_bind {α β ε : Type} {x : Except ε α} {f : α → Except ε β} (hx : ∃ y, x = .ok y)
    (hf : ∀ y, ∃ z, f y = .ok z) : ∃ z, x >>= f = .ok z := by
  obtain ⟨y, rfl⟩ := hx
  exact hf y

open TokenTable (resolve resolve_listed Grounded Covers registerAll registerAll_covers)

/-- Nothing is repeated in a list without duplicates, and something in any other. -/
theorem Snapshot.repeated?_eq_none {seen ids : List TokenId} :
    repeated? seen ids = none ↔ ids.Nodup ∧ ∀ id ∈ ids, id ∉ seen := by
  induction ids generalizing seen with
  | nil => exact ⟨fun _ => ⟨List.nodup_nil, List.forall_mem_nil _⟩, fun _ => rfl⟩
  | cons id rest ih =>
    rw [repeated?, List.nodup_cons, List.forall_mem_cons]
    by_cases hseen : id ∈ seen
    · rw [if_pos hseen]
      exact ⟨nofun, fun h => absurd hseen h.2.1⟩
    · rw [if_neg hseen, ih]
      constructor
      · rintro ⟨hrest, hnew⟩
        exact ⟨⟨fun hmem => hnew id hmem List.mem_cons_self, hrest⟩, hseen,
          fun other ho hmem => hnew other ho (List.mem_cons_of_mem _ hmem)⟩
      · rintro ⟨⟨hid, hrest⟩, -, hnew⟩
        refine ⟨hrest, fun other ho hmem => ?_⟩
        rcases List.mem_cons.1 hmem with rfl | hold
        · exact hid ho
        · exact hnew other ho hold

namespace Transition

variable {plan step : String} {tokens : List Token} {tr tr' : Transition} {state : StepState}

/-- A transition takes a captured state that fits. -/
theorem restored_of_takes (h : tr.Takes step tokens state tr') :
    restored plan step tokens tr state = .ok tr' := by
  cases h with
  | join rebuilt => rw [restored, rebuilt]
  | task resolved => rw [restored, resolved]
  | nested isNest resolved built given =>
    rw [restored]
    simp only [isNest, resolved, built, given]

end Transition

/-- Records that their steps can take are all taken; else the first that its step
refuses decides. -/
theorem Slot.restoreAll_verdict {plan : String} {tokens : List Token} {good : StepRecord → Prop}
    {blame : Fault → Prop} {slots : List Slot} {records : List StepRecord}
    (each : ∀ r ∈ records, ∃ i slot, Engine.slotIndex? slots r.step = some i ∧
      slots[i]? = some slot ∧ ∀ tr, tr.outline = slot.transition.outline →
        (good r ∧ ∃ tr', Transition.restored plan r.step tokens tr r.state = .ok tr') ∨
        (¬ good r ∧ ∃ f, blame f ∧ Transition.restored plan r.step tokens tr r.state = .error f)) :
    ((∀ r ∈ records, good r) ∧ (restoreAll plan tokens slots records).2 = .ok ()) ∨
    ((∃ r ∈ records, ¬ good r) ∧
      ∃ f, blame f ∧ (restoreAll plan tokens slots records).2 = .error f) := by
  induction records generalizing slots with
  | nil =>
    rw [restoreAll]
    exact .inl ⟨List.forall_mem_nil _, rfl⟩
  | cons r rest ih =>
    obtain ⟨step, state⟩ := r
    obtain ⟨hfirst, hrest⟩ := List.forall_mem_cons.1 each
    obtain ⟨i, slot, hindex, hi, htakes⟩ := hfirst
    rw [restoreAll]
    simp only [hindex, hi]
    rcases htakes slot.transition rfl with ⟨hgood, tr', hok⟩ | ⟨hbad, f, hf, herror⟩
    · have houtline := (Transition.takes_of_restored hok).outline
      simp only [hok]
      have hlater := @ih (slots.set i { slot with transition := tr' }) fun r hr => by
        obtain ⟨j, other, hat, hj, hboth⟩ := hrest r hr
        rw [slotIndex?_set hi]
        by_cases hij : i = j
        · subst hij
          obtain rfl := Option.some.inj (hi.symm.trans hj)
          have hlt := (List.getElem?_eq_some_iff.1 hi).1
          refine ⟨i, _, hat, by rw [List.getElem?_set_self hlt], fun tr htr => hboth tr ?_⟩
          exact htr.trans houtline
        · exact ⟨j, other, hat, by rw [List.getElem?_set_ne hij, hj], hboth⟩
      rcases hlater with ⟨hall, hdone⟩ | ⟨⟨r, hr, hbad⟩, hfault⟩
      · exact .inl ⟨List.forall_mem_cons.2 ⟨hgood, hall⟩, hdone⟩
      · exact .inr ⟨⟨r, List.mem_cons_of_mem _ hr, hbad⟩, hfault⟩
    · simp only [herror]
      exact .inr ⟨⟨_, List.mem_cons_self, hbad⟩, f, hf, rfl⟩

namespace Engine

variable {fitter : Fitter} {e : Engine} {now : Timestamp}

theorem records_tokens (holdings : List Holding) :
    (Holding.records holdings).flatMap (·.tokens) =
      (holdings.flatMap (·.tokens)).map (·.id) := by
  induction holdings with
  | nil => rfl
  | cons h rest ih =>
    rw [List.flatMap_cons, List.map_append, ← ih]
    by_cases hempty : h.tokens = []
    · simp [Holding.records, hempty]
    · simp [Holding.records, hempty]

/-- What a snapshot says is held are the tokens of the net. -/
theorem captured_claims (h : e.Pausable) : Snapshot.claims (e.captured now).places
    (e.captured now).transitions = (e.holdings.flatMap (·.tokens) ++
      e.slots.flatMap (·.transition.taken)).map (·.id) := by
  have hsteps : ∀ slots : List Slot, (∀ slot ∈ slots, ∀ nest t child,
      slot.transition = .busy nest t child → child.Pausable) →
      (slots.filterMap (Slot.record? now)).flatMap Snapshot.taken =
        (slots.flatMap (·.transition.taken)).map (·.id) := by
    intro slots
    induction slots with
    | nil => exact fun _ => rfl
    | cons slot rest ih =>
      intro hall
      obtain ⟨hfirst, hrest⟩ := List.forall_mem_cons.1 hall
      rw [List.flatMap_cons, List.map_append, ← ih hrest, List.filterMap_cons, Slot.record?]
      cases htr : slot.transition with
      | busy nest t child =>
        simp only [Transition.state?, pause_eq (hfirst nest t child htr)]
        rfl
      | join inputs pending =>
        simp only [Transition.state?]
        by_cases hempty : pending = []
        · subst hempty
          rfl
        · rw [if_neg (by simpa using hempty)]
          rfl
      | task activity held =>
        simp only [Transition.state?]
        by_cases hempty : held = []
        · subst hempty
          rfl
        · rw [if_neg (by simpa using hempty)]
          rfl
      | _ => rfl
  rw [Snapshot.claims, List.map_append]
  exact congrArg₂ (· ++ ·) (records_tokens e.holdings)
    (hsteps e.slots fun slot hs nest t child ht => h.child hs ht)

theorem claims_nodup (now : Timestamp) (h : e.Pausable) : (Snapshot.claims (e.captured now).places
    (e.captured now).transitions).Nodup ↔ e.Exclusive := by
  rw [captured_claims h, Exclusive, work_eq]
  rfl

/-- The places of a snapshot are places of the plan, and their tokens in the table. -/
theorem captured_contents {tokens : List Token}
    (resolves : ∀ t ∈ e.tokens, ∃ u, resolve tokens t.id = .ok u) :
    ∃ contents, Snapshot.contents e.outline.holdings tokens (Holding.records e.holdings) =
      .ok contents := by
  refine exists_mapM fun r hr => ?_
  obtain ⟨h, hmem, rfl⟩ := List.mem_map.1 hr
  have hh := (List.mem_filter.1 hmem).1
  have hplace : (placeIndex? e.outline.holdings h.place.id).isSome := by
    rw [placeIndex?, List.findIdx?_isSome, List.any_eq_true]
    exact ⟨.new h.place, List.mem_map_of_mem hh, by simp [Holding.new]⟩
  obtain ⟨p, hp⟩ := Option.isSome_iff_exists.1 hplace
  obtain ⟨ts, hts⟩ : ∃ ts, (h.tokens.map (·.id)).mapM (resolve tokens) = .ok ts := by
    refine exists_mapM fun id hid => ?_
    obtain ⟨t, ht, rfl⟩ := List.mem_map.1 hid
    exact resolves t (List.mem_append_left _ (List.mem_flatMap.2 ⟨h, hh, ht⟩))
  exact ⟨(p, ts), by simp only [hp, hts]; rfl⟩

/-- The generations of a join fit the join again. -/
theorem captured_generations {tokens : List Token} {step : String} {inputs : Nat}
    {pending : List Generation} (full : ∀ g ∈ pending, g.slots.length = inputs)
    (resolves : ∀ t ∈ pending.flatMap (·.tokens), ∃ u, resolve tokens t.id = .ok u) :
    ∃ rebuilt, (pending.map (·.record)).mapM (Generation.ofRecord step inputs tokens) =
      .ok rebuilt := by
  refine exists_mapM fun r hr => ?_
  obtain ⟨g, hg, rfl⟩ := List.mem_map.1 hr
  have hknown : ∀ t ∈ g.tokens, ∃ u, resolve tokens t.id = .ok u := fun t ht =>
    resolves t (List.mem_flatMap.2 ⟨g, hg, ht⟩)
  have hwidth : g.record.slots.length = inputs := by
    rw [← full g hg]
    exact List.length_map _
  obtain ⟨parent, hparent⟩ := hknown g.parent List.mem_cons_self
  have hid : resolve tokens g.record.parent = .ok parent := hparent
  unfold Generation.ofRecord
  rw [if_neg (not_not.2 hwidth)]
  refine exists_bind (exists_mapM fun entry hentry => ?_) fun slots => ⟨⟨parent, slots⟩, ?_⟩
  · obtain ⟨slot, hslot, rfl⟩ := List.mem_map.1 hentry
    cases slot with
    | none => exact ⟨none, rfl⟩
    | some t =>
      obtain ⟨u, hu⟩ := hknown t
        (List.mem_cons_of_mem _ (List.mem_filterMap.2 ⟨some t, hslot, rfl⟩))
      exact ⟨some u, by simp only [Option.map_some, hu]; rfl⟩
  · simp only [bind, Except.bind, hid]

end Engine

def Fault.Doubled (f : Fault) : Prop := ∃ plan id, f = .snapshotMismatch plan (.heldTwice id)

namespace Engine

/-- How a new net takes a snapshot of this one: it accepts it if no net holds a token
twice, at any depth, and refuses it for such a token otherwise. -/
def Judged (now : Timestamp) (e : Engine) : Prop :=
  (e.Throughout Exclusive ∧ (e.outline.restore (e.captured now)).2 = .ok ()) ∨
    (¬ e.Throughout Exclusive ∧ ∃ f : Fault, f.Doubled ∧
      (e.outline.restore (e.captured now)).2 = .error f)

def ExclusiveWithin (e : Engine) (r : StepRecord) : Prop :=
  ∀ slot ∈ e.slots, slot.step = r.step → ∀ nest t child, slot.transition = .busy nest t child →
    child.Throughout Exclusive

end Engine

/-- A transition can be given back what was recorded of it, if that can be done with
the net within. -/
theorem Transition.restored_verdict {now : Timestamp} {plan step : String} {tokens : List Token}
    {tr blank : Transition} {state : StepState} (recorded : tr.state? now = some state)
    (full : ∀ inputs pending, tr = .join inputs pending → ∀ g ∈ pending, g.slots.length = inputs)
    (resolves : ∀ t ∈ tr.tokens, ∃ u, resolve tokens t.id = .ok u)
    (pausable : ∀ nest t child, tr = .busy nest t child → child.Pausable)
    (built : ∀ nest t child, tr = .busy nest t child →
      Engine.build nest.fitter nest.plan = .ok child.outline)
    (inside : ∀ nest t child, tr = .busy nest t child → child.Judged now)
    (same : blank.outline = tr.outline) :
    ((∀ nest t child, tr = .busy nest t child → child.Throughout Engine.Exclusive) ∧
      ∃ tr', restored plan step tokens blank state = .ok tr') ∨
    (¬ (∀ nest t child, tr = .busy nest t child → child.Throughout Engine.Exclusive) ∧
      ∃ f : Fault, f.Doubled ∧ restored plan step tokens blank state = .error f) := by
  cases tr with
  | join inputs pending =>
    rw [state?] at recorded
    split at recorded
    · cases recorded
    cases recorded
    cases blank with
    | join =>
      cases same
      obtain ⟨rebuilt, hrebuilt⟩ := Engine.captured_generations (full _ _ rfl) resolves
      exact .inl ⟨fun _ _ _ hbusy => (by cases hbusy), _, restored_of_takes (.join hrebuilt)⟩
    | _ => cases same
  | task activity held =>
    rw [state?] at recorded
    split at recorded
    · cases recorded
    cases recorded
    cases blank with
    | task =>
      cases same
      obtain ⟨ts, hts⟩ : ∃ ts, (held.map (·.id)).mapM (resolve tokens) = .ok ts := by
        refine exists_mapM fun id hid => ?_
        obtain ⟨t, ht, rfl⟩ := List.mem_map.1 hid
        exact resolves t ht
      exact .inl ⟨fun _ _ _ hbusy => (by cases hbusy), _, restored_of_takes (.task hts)⟩
    | _ => cases same
  | busy nest t child =>
    rw [state?, Engine.pause_eq (pausable _ _ _ rfl)] at recorded
    cases recorded
    have hnest : blank.nest? = some nest := by
      rw [← nest?_outline, same]
      rfl
    obtain ⟨u, hu⟩ := resolves t List.mem_cons_self
    have hbuild := built _ _ _ rfl
    rcases inside _ _ _ rfl with ⟨hgood, hok⟩ | ⟨hbad, f, hf, herror⟩
    · refine .inl ⟨fun nest' t' child' heq => by cases heq; exact hgood, _,
        restored_of_takes (.nested hnest hu hbuild (Prod.ext rfl hok))⟩
    · refine .inr ⟨fun hall => hbad (hall _ _ _ rfl), f, hf, ?_⟩
      rw [restored]
      simp only [hnest, hu, hbuild]
      rw [show child.outline.restore (child.captured now) = (_, .error f) from Prod.ext rfl herror]
  | pass => cases recorded
  | split => cases recorded
  | routed => cases recorded
  | idle => cases recorded

namespace Engine

variable {fitter : Fitter} {e : Engine} {now : Timestamp}

/-- A step can be given back what was recorded of it, if that can be done with the net
within. -/
theorem record_verdict (plan : String) {tokens : List Token} (hf : fitter.Regular)
    (hfits : e.Throughout (Fits fitter))
    (hfull : e.Throughout (Orderly fun inputs g => g.Full inputs)) (hp : e.Pausable)
    (resolves : ∀ t ∈ e.tokens, ∃ u, resolve tokens t.id = .ok u)
    (inside : ∀ slot ∈ e.slots, ∀ nest t child, slot.transition = .busy nest t child →
      child.Judged now) {r : StepRecord} (hr : r ∈ (e.captured now).transitions) :
    ∃ i slot, slotIndex? e.outline.slots r.step = some i ∧ e.outline.slots[i]? = some slot ∧
      ∀ tr, tr.outline = slot.transition.outline →
        (e.ExclusiveWithin r ∧
          ∃ tr', Transition.restored plan r.step tokens tr r.state = .ok tr') ∨
        (¬ e.ExclusiveWithin r ∧
          ∃ f : Fault, f.Doubled ∧ Transition.restored plan r.step tokens tr r.state = .error f) := by
  obtain ⟨slot, hs, hrecord⟩ := List.mem_filterMap.1 hr
  obtain ⟨state, hstate, rfl⟩ := Option.map_eq_some_iff.1 hrecord
  obtain ⟨i, hi⟩ := List.mem_iff_getElem?.1 hs
  have hdistinct := hfits.here.distinctSteps
  have hat : e.outline.slots[i]? = some slot.outline := by
    change (e.slots.map Slot.outline)[i]? = _
    rw [List.getElem?_map, hi]
    rfl
  have hbuilt : ∀ nest t child, slot.transition = .busy nest t child →
      build nest.fitter nest.plan = .ok child.outline := by
    intro nest t child hbusy
    have hbuild := (hfits.child hs hbusy).here.1
    rwa [hfits.here.2 slot hs nest t child hbusy, ← hfits.here.fitter hf hs hbusy] at hbuild
  refine ⟨i, _, (slot_of_record hdistinct hi hstate).2, hat, fun tr htr => ?_⟩
  have hone := @Transition.restored_verdict now plan slot.step tokens slot.transition tr state hstate
    (hfull.here slot hs)
    (fun t ht => resolves t (List.mem_append_right _ (List.mem_flatMap.2 ⟨slot, hs, ht⟩)))
    (fun nest t child hbusy => hp.child hs hbusy) hbuilt (inside slot hs)
    (htr.trans slot.transition.outline_outline)
  -- No other step has the name, so the record speaks of this one alone.
  refine hone.imp (fun h => ⟨fun other hother hstep => ?_, h.2⟩)
    fun h => ⟨fun hgood => h.1 (hgood slot hs rfl), h.2⟩
  obtain rfl := List.inj_on_of_nodup_map hdistinct hother hs hstep
  exact h.1

/-- A new net takes in the snapshot of a net that holds no token twice, at any depth,
and refuses any other for that reason. -/
theorem restore_verdict (now : Timestamp) (hf : fitter.Regular) (hp : e.Pausable)
    (hfits : e.Throughout (Fits fitter))
    (hfull : e.Throughout (Orderly fun inputs g => g.Full inputs)) : e.Judged now := by
  have hall := hp
  induction hp with
  | @intro e here inside ih =>
    have hstatus : ¬ e.outline.status ≠ .created := not_not.2 rfl
    have hmisfit : e.outline.misfit? e.plan.id e.plan.version e.fingerprint = none := by
      simp [misfit?, outline]
    obtain ⟨tokens, htokens⟩ := (Grounded.nil.registerAll e.tokens).tokens
    have hresolves : ∀ t ∈ e.tokens, ∃ u, resolve tokens t.id = .ok u := fun t ht =>
      resolve_listed htokens (registerAll_covers ht).listed
    obtain ⟨contents, hcontents⟩ := captured_contents hresolves
    unfold Judged captured
    rw [restore, if_neg hstatus, hmisfit]
    simp only [Snapshot.unpack, htokens, bind, Except.bind]
    -- Tokens that this net holds twice are found first, before any net within is given back.
    by_cases hexclusive : e.Exclusive
    · have hnone : Snapshot.repeated? [] (Snapshot.claims (Holding.records e.holdings)
          (e.slots.filterMap (Slot.record? now))) = none :=
        Snapshot.repeated?_eq_none.2
          ⟨(claims_nodup now hall).2 hexclusive, fun _ _ => List.not_mem_nil⟩
      have hverdict := Slot.restoreAll_verdict fun r hr =>
        record_verdict e.plan.id hf hfits hfull hall hresolves
          (fun slot hs nest t child hbusy => ih slot hs nest t child hbusy (hfits.child hs hbusy)
            (hfull.child hs hbusy) (inside slot hs nest t child hbusy)) hr
      simp only [hnone, hcontents]
      rcases hverdict with ⟨hgood, hok⟩ | ⟨⟨r, hr, hbad⟩, f, hf, herror⟩
      · refine .inl ⟨.intro hexclusive fun slot hs nest t child hbusy => ?_, ?_⟩
        · have hrecord : ⟨slot.step, .nested t.id (child.captured now)⟩ ∈
              (e.captured now).transitions := by
            refine List.mem_filterMap.2 ⟨slot, hs, ?_⟩
            rw [Slot.record?, hbusy, Transition.state?, pause_eq (inside slot hs nest t child hbusy)]
            rfl
          exact hgood _ hrecord slot hs rfl nest t child hbusy
        · rw [show Slot.restoreAll e.outline.plan.id tokens e.outline.slots
            (e.slots.filterMap (Slot.record? now)) = (_, .ok ()) from Prod.ext rfl hok]
      · refine .inr ⟨fun hthroughout => hbad fun slot hs _ nest t child hbusy =>
          hthroughout.child hs hbusy, f, hf, ?_⟩
        rw [show Slot.restoreAll e.outline.plan.id tokens e.outline.slots
          (e.slots.filterMap (Slot.record? now)) = (_, .error f) from Prod.ext rfl herror]
    · right
      refine ⟨fun hthroughout => hexclusive hthroughout.here, ?_⟩
      have hsome : Snapshot.repeated? [] (Snapshot.claims (Holding.records e.holdings)
          (e.slots.filterMap (Slot.record? now))) ≠ none := fun hnone =>
        hexclusive ((claims_nodup now hall).1 (Snapshot.repeated?_eq_none.1 hnone).1)
      obtain ⟨id, hid⟩ := Option.ne_none_iff_exists'.1 hsome
      simp only [hid]
      exact ⟨_, ⟨_, id, rfl⟩, rfl⟩

end Engine
end RecipeNet
