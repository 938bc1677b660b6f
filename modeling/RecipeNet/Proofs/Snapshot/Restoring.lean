import RecipeNet.Proofs.Net.Mention
import RecipeNet.Proofs.Snapshot.Table
import RecipeNet.Snapshot.Restore

/-!
What loading a snapshot makes of a new net: a paused net of the same plan, whose
tokens are those that the token tables describe, at every depth.
-/

namespace RecipeNet

open TokenTable (Reads resolve)

namespace Generation

/-- A generation that comes from a record has the identities of the record. -/
theorem ofRecord_ok {step : String} {inputs : Nat} {tokens : List Token} {r : GenerationRecord}
    {g : Generation} (h : ofRecord step inputs tokens r = .ok g) :
    g.record = r ∧ r.slots.length = inputs ∧ ∀ t ∈ g.tokens, t ∈ tokens := by
  obtain ⟨parentId, entries⟩ := r
  unfold ofRecord at h
  dsimp only at h ⊢
  by_cases hlength : entries.length ≠ inputs
  · rw [if_pos hlength] at h
    cases h
  rw [if_neg hlength] at h
  simp only [bind, Except.bind] at h
  split at h
  · cases h
  rename_i slots hslots
  cases hparent : resolve tokens parentId with
  | error reason => simp [hparent] at h
  | ok parent =>
    simp only [hparent, Except.ok.injEq] at h
    subst h
    obtain ⟨hmem, hid⟩ := TokenTable.resolve_ok hparent
    have hboth : slots.map (fun slot => slot.map (·.id)) = entries ∧
        ∀ t ∈ slots.filterMap id, t ∈ tokens := by
      have hall := forall₂_of_mapM hslots
      clear hslots hlength
      induction hall with
      | nil => exact ⟨rfl, List.forall_mem_nil _⟩
      | @cons entry slot _ _ hone _ ih =>
        obtain ⟨hmap, hknown⟩ := ih
        cases entry with
        | none =>
          cases hone
          exact ⟨congrArg (none :: ·) hmap, hknown⟩
        | some id =>
          dsimp only at hone
          cases hresolve : resolve tokens id with
          | error reason => simp [hresolve, Except.map] at hone
          | ok t =>
            simp only [hresolve, Except.map, Except.ok.injEq] at hone
            subst hone
            obtain ⟨ht, rfl⟩ := TokenTable.resolve_ok hresolve
            exact ⟨congrArg (some t.id :: ·) hmap, List.forall_mem_cons.2 ⟨ht, hknown⟩⟩
    refine ⟨?_, not_not.1 hlength, List.forall_mem_cons.2 ⟨hmem, hboth.2⟩⟩
    simp only [record, hid, hboth.1]

theorem records_of_mapM {step : String} {inputs : Nat} {tokens : List Token}
    {records : List GenerationRecord} {pending : List Generation}
    (h : records.mapM (ofRecord step inputs tokens) = .ok pending) :
    records = pending.map record ∧ ∀ g ∈ pending, g.slots.length = inputs := by
  have hall := forall₂_of_mapM h
  clear h
  induction hall with
  | nil => exact ⟨rfl, List.forall_mem_nil _⟩
  | @cons r g _ _ hone _ ih =>
    obtain ⟨hrecord, hlength, -⟩ := ofRecord_ok hone
    subst hrecord
    refine ⟨congrArg (g.record :: ·) ih.1, List.forall_mem_cons.2 ⟨?_, ih.2⟩⟩
    rw [← hlength]
    exact (List.length_map _).symm

end Generation

namespace Transition

inductive Takes (step : String) (tokens : List Token) : Transition → StepState → Transition → Prop
  | join {inputs : Nat} {old pending : List Generation} {records : List GenerationRecord}
      (rebuilt : records.mapM (Generation.ofRecord step inputs tokens) = .ok pending) :
    Takes step tokens (.join inputs old) (.join records) (.join inputs pending)
  | task {activity : String} {old held : List Token} {ids : List TokenId}
      (resolved : ids.mapM (resolve tokens) = .ok held) :
    Takes step tokens (.task activity old) (.task ids) (.task activity held)
  | nested {tr : Transition} {nest : Nest} {id : TokenId} {t : Token} {inner : Snapshot}
      {fresh child : Engine} (isNest : tr.nest? = some nest) (resolved : resolve tokens id = .ok t)
      (built : Engine.build nest.fitter nest.plan = .ok fresh)
      (restored : fresh.restore inner = (child, .ok ())) :
    Takes step tokens tr (.nested id inner) (.busy nest t child)

variable {plan step : String} {tokens : List Token} {tr tr' : Transition} {state : StepState}

theorem takes_of_restored (h : restored plan step tokens tr state = .ok tr') :
    tr.Takes step tokens state tr' := by
  cases state with
  | join records =>
    cases tr with
    | join inputs old =>
      rw [restored] at h
      cases hall : records.mapM (Generation.ofRecord step inputs tokens) with
      | error reason => simp [hall] at h
      | ok pending =>
        simp only [hall, Except.ok.injEq] at h
        exact h ▸ .join hall
    | _ => simp [restored] at h
  | task ids =>
    cases tr with
    | task activity old =>
      rw [restored] at h
      cases hall : ids.mapM (resolve tokens) with
      | error reason => simp [hall] at h
      | ok held =>
        simp only [hall, Except.ok.injEq] at h
        exact h ▸ .task hall
    | _ => simp [restored] at h
  | nested id inner =>
    rw [restored] at h
    cases hnest : tr.nest? with
    | none => simp [hnest] at h
    | some nest =>
      simp only [hnest] at h
      cases hid : resolve tokens id with
      | error reason => simp [hid] at h
      | ok t =>
        simp only [hid] at h
        cases hbuild : Engine.build nest.fitter nest.plan with
        | error f => simp [hbuild] at h
        | ok fresh =>
          simp only [hbuild] at h
          split at h
          · cases h
          · rename_i child hrestore
            cases h
            exact .nested hnest hid hbuild hrestore

/-- What a transition takes in is in the table. -/
theorem Takes.known (h : tr.Takes step tokens state tr') : ∀ t ∈ tr'.tokens, t ∈ tokens := by
  intro t ht
  cases h with
  | join rebuilt =>
    obtain ⟨g, hg, ht⟩ := List.mem_flatMap.1 ht
    obtain ⟨r, -, hr⟩ := exists_left_of_forall₂ (forall₂_of_mapM rebuilt) hg
    exact (Generation.ofRecord_ok hr).2.2 t ht
  | task resolved =>
    obtain ⟨id, -, hid⟩ := exists_left_of_forall₂ (forall₂_of_mapM resolved) ht
    exact (TokenTable.resolve_ok hid).1
  | nested _ resolved =>
    obtain rfl := List.mem_singleton.1 ht
    exact (TokenTable.resolve_ok resolved).1

theorem nest?_outline (tr : Transition) : tr.outline.nest? = tr.nest? := by
  cases tr <;> rfl

theorem outline_of_nest? {nest : Nest} (h : tr.nest? = some nest) : tr.outline = .idle nest := by
  cases tr with
  | idle => cases h; rfl
  | busy => cases h; rfl
  | _ => cases h

theorem Takes.outline (h : tr.Takes step tokens state tr') : tr'.outline = tr.outline := by
  cases h with
  | join => rfl
  | task => rfl
  | nested isNest => exact (outline_of_nest? isNest).symm

/-- What a transition has taken in before does not matter. -/
theorem Takes.congr {other : Transition} (h : tr.Takes step tokens state tr')
    (same : tr.outline = other.outline) : other.Takes step tokens state tr' := by
  cases h with
  | join rebuilt =>
    cases other with
    | join =>
      cases same
      exact .join rebuilt
    | _ => cases same
  | task resolved =>
    cases other with
    | task =>
      cases same
      exact .task resolved
    | _ => cases same
  | nested isNest resolved built restored =>
    refine .nested ?_ resolved built restored
    rw [← nest?_outline, ← same, nest?_outline]
    exact isNest

end Transition

namespace Slot

theorem steps_set {slots : List Slot} {i : Nat} {slot : Slot} (hi : slots[i]? = some slot)
    (tr : Transition) :
    (slots.set i { slot with transition := tr }).map (·.step) = slots.map (·.step) :=
  map_set_same hi rfl

theorem slotIndex?_set {slots : List Slot} {i : Nat} {slot : Slot} (hi : slots[i]? = some slot)
    (tr : Transition) (step : String) :
    Engine.slotIndex? (slots.set i { slot with transition := tr }) step =
      Engine.slotIndex? slots step := by
  have hfind : ∀ slots : List Slot, Engine.slotIndex? slots step =
      (slots.map (·.step)).findIdx? (· == step) := by
    intro slots
    rw [Engine.slotIndex?, List.findIdx?_map]
    rfl
  rw [hfind, hfind, steps_set hi tr]

/-- Each step comes to hold what the last record of it says, if there is one and
no record before it fails. -/
theorem restoreAll_spec (plan : String) (tokens : List Token) (slots : List Slot)
    (records : List StepRecord) :
    (restoreAll plan tokens slots records).1.length = slots.length ∧
    ∀ i slot, slots[i]? = some slot → ∃ tr,
      (restoreAll plan tokens slots records).1[i]? = some { slot with transition := tr } ∧
      (tr = slot.transition ∧ ((restoreAll plan tokens slots records).2 = .ok () →
          ∀ r ∈ records, Engine.slotIndex? slots r.step ≠ some i) ∨
        ∃ r ∈ records, Engine.slotIndex? slots r.step = some i ∧
          slot.transition.Takes r.step tokens r.state tr) := by
  have hsame : ∀ {slots : List Slot} {records : List StepRecord} {result : Except Fault Unit},
      (result = .ok () → records = []) → ∀ i slot, slots[i]? = some slot → ∃ tr,
        slots[i]? = some { slot with transition := tr } ∧
        (tr = slot.transition ∧ (result = .ok () →
            ∀ r ∈ records, Engine.slotIndex? slots r.step ≠ some i) ∨
          ∃ r ∈ records, Engine.slotIndex? slots r.step = some i ∧
            slot.transition.Takes r.step tokens r.state tr) := by
    intro slots records result hnone i slot hi
    refine ⟨slot.transition, ?_, .inl ⟨rfl, fun hok => ?_⟩⟩
    · cases slot
      exact hi
    · rw [hnone hok]
      exact List.forall_mem_nil _
  induction records generalizing slots with
  | nil =>
    rw [restoreAll]
    exact ⟨rfl, hsame fun _ => rfl⟩
  | cons r rest ih =>
    obtain ⟨step, state⟩ := r
    rw [restoreAll]
    cases hindex : Engine.slotIndex? slots step with
    | none => exact ⟨rfl, hsame nofun⟩
    | some j =>
      dsimp only
      cases hj : slots[j]? with
      | none => exact ⟨rfl, hsame nofun⟩
      | some target =>
        dsimp only
        cases htake : Transition.restored plan step tokens target.transition state with
        | error f => exact ⟨rfl, hsame nofun⟩
        | ok tr =>
          dsimp only
          have hfirst := Transition.takes_of_restored htake
          obtain ⟨hlength, hrest⟩ := ih (slots.set j { target with transition := tr })
          refine ⟨by rw [hlength, List.length_set], fun i slot hi => ?_⟩
          -- A later record of the same step replaces what this one has given it.
          by_cases hij : j = i
          · subst hij
            obtain rfl := Option.some.inj (hj.symm.trans hi)
            have hset : (slots.set j { target with transition := tr })[j]? =
                some { target with transition := tr } := by
              obtain ⟨hlt, -⟩ := List.getElem?_eq_some_iff.1 hj
              simp [hlt]
            obtain ⟨last, hlast, hcases⟩ := hrest j _ hset
            refine ⟨last, hlast, .inr ?_⟩
            rcases hcases with ⟨rfl, -⟩ | ⟨r, hr, hat, htakes⟩
            · exact ⟨⟨step, state⟩, List.mem_cons_self, hindex, hfirst⟩
            · rw [slotIndex?_set hj] at hat
              exact ⟨r, List.mem_cons_of_mem _ hr, hat, htakes.congr hfirst.outline⟩
          · have hother : (slots.set j { target with transition := tr })[i]? = some slot := by
              rw [List.getElem?_set_ne hij]
              exact hi
            obtain ⟨last, hlast, hcases⟩ := hrest i slot hother
            refine ⟨last, hlast, ?_⟩
            rcases hcases with ⟨rfl, hnone⟩ | ⟨r, hr, hat, htakes⟩
            · refine .inl ⟨rfl, fun hok => List.forall_mem_cons.2 ⟨?_, fun r hr => ?_⟩⟩
              · rw [hindex]
                exact fun heq => hij (Option.some.inj heq)
              · rw [← slotIndex?_set hj tr]
                exact hnone hok r hr
            · rw [slotIndex?_set hj] at hat
              exact .inr ⟨r, List.mem_cons_of_mem _ hr, hat, htakes⟩

theorem slotIndex?_some {slots : List Slot} {step : String} {i : Nat} {slot : Slot}
    (h : Engine.slotIndex? slots step = some i) (hi : slots[i]? = some slot) :
    slot.step = step := by
  obtain ⟨hlt, hstep, -⟩ := List.findIdx?_eq_some_iff_getElem.1 h
  rw [List.getElem?_eq_getElem hlt] at hi
  cases hi
  simpa using hstep

theorem restoreAll_outline (plan : String) (tokens : List Token) (slots : List Slot)
    (records : List StepRecord) :
    (restoreAll plan tokens slots records).1.map outline = slots.map outline := by
  obtain ⟨hlength, hspec⟩ := restoreAll_spec plan tokens slots records
  apply List.ext_getElem?
  intro i
  rw [List.getElem?_map, List.getElem?_map]
  cases hi : slots[i]? with
  | none =>
    have hnone := List.getElem?_eq_none_iff.1 hi
    rw [← hlength] at hnone
    rw [List.getElem?_eq_none hnone]
  | some slot =>
    obtain ⟨tr, htr, hcases⟩ := hspec i slot hi
    rw [htr]
    rcases hcases with ⟨rfl, -⟩ | ⟨r, -, -, htakes⟩
    · rfl
    · simp only [Option.map_some, outline, htakes.outline]

/-- A step that records have been given to is as before, or has taken one of its own. -/
theorem mem_restoreAll {plan : String} {tokens : List Token} {slots : List Slot}
    {records : List StepRecord} {slot : Slot}
    (hs : slot ∈ (restoreAll plan tokens slots records).1) : ∃ old ∈ slots,
      slot = { old with transition := slot.transition } ∧
      (slot.transition = old.transition ∨ ∃ state, ⟨slot.step, state⟩ ∈ records ∧
        old.transition.Takes slot.step tokens state slot.transition) := by
  obtain ⟨hlength, hspec⟩ := restoreAll_spec plan tokens slots records
  obtain ⟨i, hi⟩ := List.mem_iff_getElem?.1 hs
  obtain ⟨hlt, -⟩ := List.getElem?_eq_some_iff.1 hi
  rw [hlength] at hlt
  have hold := List.getElem?_eq_getElem hlt
  obtain ⟨tr, htr, hcases⟩ := hspec i _ hold
  obtain rfl := Option.some.inj (htr.symm.trans hi)
  refine ⟨_, List.getElem_mem hlt, rfl, ?_⟩
  rcases hcases with ⟨rfl, -⟩ | ⟨⟨step, state⟩, hr, hindex, htakes⟩
  · exact .inl rfl
  · obtain rfl := slotIndex?_some hindex hold
    exact .inr ⟨state, hr, htakes⟩

end Slot

theorem Holding.addAll (h : Holding) (ts : List Token) :
    ts.foldl Holding.add h = { h with tokens := h.tokens ++ ts } := by
  induction ts generalizing h with
  | nil => rw [List.foldl_nil, List.append_nil]
  | cons t rest ih =>
    rw [List.foldl_cons, ih]
    simp only [Holding.add, List.append_assoc, List.singleton_append]

/-- What a restored place holds is what the records of it list. -/
theorem Snapshot.contents_ok {holdings : List Holding} {tokens : List Token}
    {places : List PlaceRecord} {held : List (Nat × List Token)}
    (h : contents holdings tokens places = .ok held) :
    List.Forall₂ (fun r x => Engine.placeIndex? holdings r.place = some x.1 ∧
      List.Forall₂ (fun id t => resolve tokens id = .ok t) r.tokens x.2) places held := by
  refine List.Forall₂.imp (fun r x hone => ?_) (forall₂_of_mapM h)
  cases hindex : Engine.placeIndex? holdings r.place with
  | none => simp [hindex] at hone
  | some place =>
    simp only [hindex] at hone
    cases hall : r.tokens.mapM (resolve tokens) with
    | error reason => simp [hall, Except.map] at hone
    | ok ts =>
      simp only [hall, Except.map, Except.ok.injEq] at hone
      subst hone
      exact ⟨rfl, forall₂_of_mapM hall⟩

namespace Snapshot

/-- A property of a snapshot and of all snapshots within it. -/
inductive Throughout (P : Snapshot → Prop) : Snapshot → Prop
  | intro {snapshot : Snapshot} (here : P snapshot)
      (inside : ∀ step id inner, ⟨step, .nested id inner⟩ ∈ snapshot.transitions →
        Throughout P inner) : Throughout P snapshot

section

variable {P Q : Snapshot → Prop} {s : Snapshot}

theorem Throughout.here (h : s.Throughout P) : P s := by
  cases h with
  | intro here _ => exact here

theorem Throughout.inside (h : s.Throughout P) {step : String} {id : TokenId} {inner : Snapshot}
    (hmem : ⟨step, .nested id inner⟩ ∈ s.transitions) : inner.Throughout P := by
  cases h with
  | intro _ inside => exact inside step id inner hmem

theorem Throughout.and (hP : s.Throughout P) (hQ : s.Throughout Q) :
    s.Throughout fun s => P s ∧ Q s := by
  induction hP with
  | @intro s here inside ih =>
    exact .intro ⟨here, hQ.here⟩ fun step id inner hmem => ih step id inner hmem (hQ.inside hmem)

theorem Throughout.imp (h : s.Throughout P) (hPQ : ∀ s, P s → Q s) : s.Throughout Q := by
  induction h with
  | @intro s here inside ih => exact .intro (hPQ s here) ih

end

/-- A net within a snapshot is smaller than the snapshot. -/
theorem nested_lt {snapshot inner : Snapshot} {step : String} {id : TokenId}
    (h : ⟨step, .nested id inner⟩ ∈ snapshot.transitions) : sizeOf inner < sizeOf snapshot := by
  obtain ⟨planId, version, fingerprint, time, records, places, transitions⟩ := snapshot
  have hlt := List.sizeOf_lt_of_mem h
  simp only [StepRecord.mk.sizeOf_spec, StepState.nested.sizeOf_spec] at hlt
  simp only [Snapshot.mk.sizeOf_spec]
  omega

theorem throughout_of_forall {P : Snapshot → Prop} (h : ∀ snapshot, P snapshot)
    (snapshot : Snapshot) : snapshot.Throughout P :=
  .intro (h snapshot) fun _ _ inner hmem =>
    have : sizeOf inner < sizeOf snapshot := nested_lt hmem
    throughout_of_forall h inner
termination_by sizeOf snapshot

end Snapshot

namespace Engine

theorem fill_get (contents : List (Nat × List Token)) (holdings : List Holding) (p : Nat) :
    (fill holdings contents)[p]? = holdings[p]?.map fun h =>
      { h with tokens := h.tokens ++ (contents.filter (·.1 == p)).flatMap (·.2) } := by
  induction contents generalizing holdings with
  | nil =>
    cases hat : holdings[p]? <;> simp [fill, hat]
  | cons x rest ih =>
    obtain ⟨place, ts⟩ := x
    have hfill : fill holdings ((place, ts) :: rest) =
        fill (holdings.modify place fun h => ts.foldl Holding.add h) rest := rfl
    rw [hfill, ih, List.getElem?_modify]
    cases hat : holdings[p]? with
    | none => simp
    | some h =>
      by_cases hp : place = p
      · subst hp
        simp [Holding.addAll]
      · simp [hp]

theorem fill_places (contents : List (Nat × List Token)) (holdings : List Holding) :
    (fill holdings contents).map (·.place) = holdings.map (·.place) := by
  apply List.ext_getElem?
  intro p
  rw [List.getElem?_map, fill_get, List.getElem?_map, Option.map_map]
  rfl

structure Loads (e : Engine) (snapshot : Snapshot) (e' : Engine) : Prop where
  created : e.status = .created
  fits : e.misfit? snapshot.planId snapshot.version snapshot.fingerprint = none
  loaded : ∃ tokens contents, TokenTable.tokens snapshot.tokens = .ok tokens ∧
    Snapshot.repeated? [] (Snapshot.claims snapshot.places snapshot.transitions) = none ∧
    Snapshot.contents e.holdings tokens snapshot.places = .ok contents ∧
    (Slot.restoreAll e.plan.id tokens e.slots snapshot.transitions).2 = .ok () ∧
    e' = { e with
      slots := (Slot.restoreAll e.plan.id tokens e.slots snapshot.transitions).1.map fun slot =>
        { slot with phase := slot.phase.suspend }
      holdings := fill e.holdings contents
      status := .paused }

/-- What a snapshot that does not fit may have put into the steps of a net. -/
inductive Stained (e : Engine) (snapshot : Snapshot) : List Slot → Prop
  | early : Stained e snapshot e.slots
  | late {tokens : List Token} (listed : TokenTable.tokens snapshot.tokens = .ok tokens) :
    Stained e snapshot (Slot.restoreAll e.plan.id tokens e.slots snapshot.transitions).1

theorem restore_refused {e : Engine} (h : e.status ≠ .created) (snapshot : Snapshot) :
    e.restore snapshot = (e, .error (.wrongState .restore e.status)) := by
  obtain ⟨planId, version, fingerprint, time, records, places, transitions⟩ := snapshot
  rw [restore, if_pos h]

/-- A net takes in a snapshot, or refuses it, or is spoiled by it. -/
theorem restore_cases (e : Engine) (snapshot : Snapshot) :
    (∃ e', e.restore snapshot = (e', .ok ()) ∧ e.Loads snapshot e') ∨
    (∃ f, e.restore snapshot = (e, .error f)) ∨
    ∃ slots f, e.restore snapshot = (e.spoiled slots f, .error f) ∧ e.status = .created ∧
      e.Stained snapshot slots := by
  obtain ⟨planId, version, fingerprint, time, records, places, transitions⟩ := snapshot
  rw [restore]
  by_cases hstatus : e.status ≠ .created
  · rw [if_pos hstatus]
    exact .inr (.inl ⟨_, rfl⟩)
  rw [if_neg hstatus]
  have hcreated := not_not.1 hstatus
  cases hfit : e.misfit? planId version fingerprint with
  | some reason => exact .inr (.inl ⟨_, rfl⟩)
  | none =>
    dsimp only
    simp only [Snapshot.unpack, bind, Except.bind]
    cases htokens : TokenTable.tokens records with
    | error reason => exact .inr (.inr ⟨_, _, rfl, hcreated, .early⟩)
    | ok tokens =>
      dsimp only
      cases hrepeated : Snapshot.repeated? [] (Snapshot.claims places transitions) with
      | some id => exact .inr (.inr ⟨_, _, rfl, hcreated, .early⟩)
      | none =>
        dsimp only
        cases hcontents : Snapshot.contents e.holdings tokens places with
        | error reason => exact .inr (.inr ⟨_, _, rfl, hcreated, .early⟩)
        | ok contents =>
          dsimp only
          cases hslots : Slot.restoreAll e.plan.id tokens e.slots transitions with
          | mk slots result =>
            obtain rfl : (Slot.restoreAll e.plan.id tokens e.slots transitions).1 = slots :=
              congrArg Prod.fst hslots
            cases result with
            | error f => exact .inr (.inr ⟨_, _, rfl, hcreated, .late htokens⟩)
            | ok u =>
              exact .inl ⟨_, rfl, hcreated, hfit, tokens, contents, htokens, hrepeated, hcontents,
                congrArg Prod.snd hslots, rfl⟩

theorem loads_of_restore {e e' : Engine} {snapshot : Snapshot}
    (h : e.restore snapshot = (e', .ok ())) : e.Loads snapshot e' := by
  rcases restore_cases e snapshot with ⟨e'', hok, hloads⟩ | ⟨f, herror⟩ | ⟨slots, f, herror, -⟩
  · cases hok.symm.trans h
    exact hloads
  · cases herror.symm.trans h
  · cases herror.symm.trans h

section

variable {fitter : Fitter} {plan : Plan} {e e' : Engine} {snapshot : Snapshot}

/-- A net that has taken in a snapshot, be it only in part. -/
structure Fed (e : Engine) (snapshot : Snapshot) (e' : Engine) : Prop where
  outline : e'.outline = e.outline
  places : ∀ hold ∈ e'.holdings, ∀ t ∈ hold.tokens, Reads snapshot.tokens t
  slots : ∃ tokens : List Token, (∀ t ∈ tokens, Reads snapshot.tokens t) ∧
    ∀ slot ∈ e'.slots, ∃ old ∈ e.slots,
      (slot.transition = old.transition ∨ ∃ state, ⟨slot.step, state⟩ ∈ snapshot.transitions ∧
        old.transition.Takes slot.step tokens state slot.transition)

/-- A snapshot leaves a net the steps that it has, and each the state that it has unless it gives
it another one. -/
structure Filled (e : Engine) (snapshot : Snapshot) (e' : Engine) : Prop where
  outline : e'.outline = e.outline
  slots : ∃ tokens : List Token, (∀ t ∈ tokens, Reads snapshot.tokens t) ∧
    ∀ slot ∈ e'.slots, ∃ old ∈ e.slots,
      (slot.transition = old.transition ∨ ∃ state, ⟨slot.step, state⟩ ∈ snapshot.transitions ∧
        old.transition.Takes slot.step tokens state slot.transition)

theorem Filled.refl (e : Engine) (snapshot : Snapshot) : e.Filled snapshot e :=
  ⟨rfl, [], List.forall_mem_nil _, fun slot hs => ⟨slot, hs, .inl rfl⟩⟩

theorem Filled.of_restoreAll {tokens : List Token}
    (htokens : TokenTable.tokens snapshot.tokens = .ok tokens)
    (hholds : e'.holdings.map (·.place) = e.holdings.map (·.place))
    (hslots : e'.slots.map Slot.outline =
        (Slot.restoreAll e.plan.id tokens e.slots snapshot.transitions).1.map Slot.outline)
    (hmem : ∀ slot ∈ e'.slots,
      ∃ old ∈ (Slot.restoreAll e.plan.id tokens e.slots snapshot.transitions).1,
        slot.step = old.step ∧ slot.transition = old.transition)
    (hplan : e'.plan = e.plan) (hprint : e'.fingerprint = e.fingerprint) :
    e.Filled snapshot e' := by
  refine ⟨outline_of_parts hholds (hslots.trans (Slot.restoreAll_outline _ _ _ _)) hplan hprint,
    tokens, fun t => TokenTable.tokens_reads htokens, fun slot hs => ?_⟩
  obtain ⟨mid, hmid, hstep, htr⟩ := hmem slot hs
  obtain ⟨old, hold, -, hcases⟩ := Slot.mem_restoreAll hmid
  rw [← hstep, ← htr] at hcases
  exact ⟨old, hold, hcases⟩

theorem Loads.filled (h : e.Loads snapshot e') : e.Filled snapshot e' := by
  obtain ⟨tokens, contents, htokens, -, -, -, rfl⟩ := h.loaded
  refine .of_restoreAll htokens (fill_places contents e.holdings) ?_ (fun slot hs => ?_) rfl rfl
  · rw [List.map_map]
    rfl
  · obtain ⟨mid, hmid, rfl⟩ := List.mem_map.1 hs
    exact ⟨mid, hmid, rfl, rfl⟩

theorem restore_filled (e : Engine) (snapshot : Snapshot) :
    e.Filled snapshot (e.restore snapshot).1 := by
  rcases restore_cases e snapshot with ⟨e', hok, hloads⟩ | ⟨f, herror⟩ |
    ⟨slots, f, herror, -, hstained⟩
  · rw [hok]
    exact hloads.filled
  · rw [herror]
    exact .refl e snapshot
  · rw [herror]
    cases hstained with
    | early => exact ⟨rfl, (Filled.refl e snapshot).slots⟩
    | late listed => exact .of_restoreAll listed rfl rfl (fun slot hs => ⟨slot, hs, rfl, rfl⟩) rfl rfl

theorem Loads.fed (h : e.Loads snapshot e') (hb : Built fitter plan e) : e.Fed snapshot e' := by
  refine ⟨h.filled.outline, fun hold hmem t ht => ?_, h.filled.slots⟩
  obtain ⟨tokens, contents, htokens, -, hcontents, -, rfl⟩ := h.loaded
  obtain ⟨p, hp⟩ := List.mem_iff_getElem?.1 hmem
  change (fill e.holdings contents)[p]? = some hold at hp
  rw [fill_get] at hp
  obtain ⟨old, hold', rfl⟩ := Option.map_eq_some_iff.1 hp
  rw [hb.empty old (List.mem_of_getElem? hold'), List.nil_append] at ht
  obtain ⟨x, hx, ht⟩ := List.mem_flatMap.1 ht
  obtain ⟨r, -, -, hall⟩ := exists_left_of_forall₂ (Snapshot.contents_ok hcontents)
    (List.mem_filter.1 hx).1
  obtain ⟨id, -, hresolve⟩ := exists_left_of_forall₂ hall ht
  exact TokenTable.tokens_reads htokens (TokenTable.resolve_ok hresolve).1

/-- Whatever comes of it, what a new net then holds is from the snapshot. -/
theorem Built.fed (hb : Built fitter plan e) (snapshot : Snapshot) :
    e.Fed snapshot (e.restore snapshot).1 := by
  have hfilled := restore_filled e snapshot
  refine ⟨hfilled.outline, ?_, hfilled.slots⟩
  have hvoid : ∀ hold ∈ e.holdings, ∀ t ∈ hold.tokens, Reads snapshot.tokens t := by
    intro hold hmem t ht
    rw [hb.empty hold hmem] at ht
    cases ht
  rcases restore_cases e snapshot with ⟨e', hok, hloads⟩ | ⟨f, herror⟩ | ⟨slots, f, herror, -, -⟩
  · rw [hok]
    exact (hloads.fed hb).places
  · rw [herror]
    exact hvoid
  · rw [herror]
    exact hvoid

structure Stocked (fitter : Fitter) (snapshot : Snapshot) (e : Engine) : Prop where
  fits : e.Fits fitter
  places : ∀ h ∈ e.holdings, ∀ t ∈ h.tokens, Reads snapshot.tokens t
  steps : ∀ slot ∈ e.slots, ∀ t ∈ slot.transition.tokens, Reads snapshot.tokens t
  joins : ∀ slot ∈ e.slots, ∀ inputs pending, slot.transition = .join inputs pending →
    pending = [] ∨ ⟨slot.step, .join (pending.map (·.record))⟩ ∈ snapshot.transitions ∧
      ∀ g ∈ pending, g.slots.length = inputs

theorem Fed.stocked (h : e.Fed snapshot e') (hbuild : build fitter plan = .ok e)
    (plans : ∀ slot ∈ e'.slots, ∀ nest t child, slot.transition = .busy nest t child →
      child.plan = nest.plan) : e'.Stocked fitter snapshot := by
  have hb := built_of_build hbuild
  obtain ⟨tokens, htokens, hslots⟩ := h.slots
  refine ⟨⟨?_, plans⟩, h.places, fun slot hs t ht => ?_, fun slot hs inputs pending hjoin => ?_⟩
  · have hplan : e'.plan = plan := (congrArg Engine.plan h.outline).trans hb.runs
    rw [h.outline, outline_of_build hbuild, hplan]
    exact hbuild
  · obtain ⟨old, hold, hcases⟩ := hslots slot hs
    rcases hcases with hsame | ⟨state, hmem, htakes⟩
    · rw [hsame, (hb.fresh hold).2.2] at ht
      cases ht
    · exact htokens t (htakes.known t ht)
  · obtain ⟨old, hold, hcases⟩ := hslots slot hs
    rw [hjoin] at hcases
    rcases hcases with hsame | ⟨state, hmem, htakes⟩
    · have hnone := (hb.fresh hold).2.1
      rw [← hsame] at hnone
      cases hnone
      exact .inl rfl
    · generalize old.transition = tr at htakes
      cases htakes with
      | join rebuilt =>
        obtain ⟨hrecords, hwidth⟩ := Generation.records_of_mapM rebuilt
        exact .inr ⟨hrecords ▸ hmem, hwidth⟩

/-- The nets within have taken in the snapshots within. -/
theorem Fed.child (hf : fitter.Regular) (h : e.Fed snapshot e')
    (hbuild : build fitter plan = .ok e) {slot : Slot} (hs : slot ∈ e'.slots) {nest : Nest}
    {t : Token} {child : Engine} (hbusy : slot.transition = .busy nest t child) :
    ∃ fresh inner, ⟨slot.step, .nested t.id inner⟩ ∈ snapshot.transitions ∧
      build fitter nest.plan = .ok fresh ∧ fresh.restore inner = (child, .ok ()) := by
  obtain ⟨tokens, htokens, hslots⟩ := h.slots
  obtain ⟨old, hold, hcases⟩ := hslots slot hs
  rw [hbusy] at hcases
  rcases hcases with hsame | ⟨state, hmem, htakes⟩
  · exact absurd hsame.symm ((built_of_build hbuild).vacant hold nest t child)
  · have hsuits := (Fits.slot hf (Fits.of_build hbuild) hold).suits
    generalize old.transition = tr at htakes hsuits
    cases htakes with
    | @nested _ _ id _ inner fresh _ isNest resolved built restored =>
      rw [← Transition.suits_outline, Transition.outline_of_nest? isNest] at hsuits
      obtain ⟨-, hfitter, -⟩ := hsuits
      rw [hfitter] at built
      obtain ⟨-, rfl⟩ := TokenTable.resolve_ok resolved
      exact ⟨fresh, inner, hmem, built, restored⟩

theorem restore_throughout (hf : fitter.Regular) {P : Snapshot → Prop}
    (hP : snapshot.Throughout P) (hbuild : build fitter plan = .ok e) :
    (e.restore snapshot).1.plan = plan ∧
      (e.restore snapshot).1.Throughout fun e => ∃ snapshot, P snapshot ∧ e.Stocked fitter snapshot := by
  induction hP generalizing plan e with
  | @intro snapshot here inside ih =>
    have hfed := (built_of_build hbuild).fed snapshot
    have hplan := (congrArg Engine.plan hfed.outline).trans (built_of_build hbuild).runs
    have hchild : ∀ slot ∈ (e.restore snapshot).1.slots, ∀ nest t child,
        slot.transition = .busy nest t child → child.plan = nest.plan ∧
          child.Throughout fun e => ∃ snapshot, P snapshot ∧ e.Stocked fitter snapshot := by
      intro slot hs nest t child hbusy
      obtain ⟨fresh, inner, hmem, built, restored⟩ := hfed.child hf hbuild hs hbusy
      have hinner := ih slot.step t.id inner hmem built
      rw [restored] at hinner
      exact hinner
    refine ⟨hplan, .intro ⟨snapshot, here, ?_⟩ fun slot hs nest t child ht => ?_⟩
    · exact hfed.stocked hbuild fun slot hs nest t child ht => (hchild slot hs nest t child ht).1
    · exact (hchild slot hs nest t child ht).2

/-- What a new net has after a snapshot has been put into it is from there. -/
theorem restore_stocked (hf : fitter.Regular) (hbuild : build fitter plan = .ok e)
    (snapshot : Snapshot) : (e.restore snapshot).1.Stocked fitter snapshot := by
  have hfed := (built_of_build hbuild).fed snapshot
  refine hfed.stocked hbuild fun slot hs nest t child ht => ?_
  obtain ⟨fresh, inner, -, built, restored⟩ := hfed.child hf hbuild hs ht
  have hall := Snapshot.throughout_of_forall (fun _ => True.intro) inner
  have hplan := (restore_throughout hf hall built).1
  rw [restored] at hplan
  exact hplan

/-- A net that has taken in a snapshot is paused, and so are the nets within. -/
theorem restore_asleep (hf : fitter.Regular) (hbuild : build fitter plan = .ok e)
    (h : e.restore snapshot = (e', .ok ())) : e'.Asleep := by
  have hall := Snapshot.throughout_of_forall (fun _ => True.intro) snapshot
  induction hall generalizing plan e e' with
  | @intro snapshot here inside ih =>
    have hb := built_of_build hbuild
    have hloads := loads_of_restore h
    refine .intro ?_ fun slot hs nest t child ht => ?_
    · obtain ⟨tokens, contents, -, -, -, -, rfl⟩ := hloads.loaded
      refine ⟨rfl, fun slot hs => ?_, hb.completion, hb.haltedBy⟩
      obtain ⟨mid, hmid, rfl⟩ := List.mem_map.1 hs
      obtain ⟨old, hold, hmid, -⟩ := Slot.mem_restoreAll hmid
      have hphase : mid.phase = .initialized := by
        rw [hmid]
        exact (hb.fresh hold).1
      simp only [hphase, Phase.suspend]
    · obtain ⟨fresh, inner, hmem, built, restored⟩ := (hloads.fed hb).child hf hbuild hs ht
      exact ih slot.step t.id inner hmem built restored

/-- A token table tells the tokens of a restored net apart. -/
theorem Stocked.own (h : e.Stocked fitter snapshot) {t : Token} (ht : e.MentionsAt [] t) :
    Reads snapshot.tokens t :=
  ht.own h.places h.steps fun _ hknown _ hparent => hknown.parent hparent

theorem coherent_of_stocked (h : e.Throughout fun e => ∃ snapshot, e.Stocked fitter snapshot) :
    e.lore.Coherent := by
  intro path
  induction path generalizing e with
  | nil =>
    obtain ⟨snapshot, hstocked⟩ := h.here
    intro t ht u hu hid
    exact (hstocked.own ht).unique (hstocked.own hu) hid
  | cons step rest ih =>
    intro t ht u hu hid
    obtain ⟨snapshot, hstocked⟩ := h.here
    obtain ⟨slot, hs, rfl, nest, v, child, hbusy, hin⟩ := MentionsAt.inside ht
    obtain ⟨slot', hs', hstep, nest', v', child', hbusy', hin'⟩ := MentionsAt.inside hu
    obtain rfl := List.inj_on_of_nodup_map hstocked.fits.distinctSteps hs' hs hstep
    cases hbusy.symm.trans hbusy'
    exact ih (h.child hs hbusy) t hin u hin' hid

end

end Engine
end RecipeNet
