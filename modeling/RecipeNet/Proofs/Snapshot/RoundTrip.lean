import RecipeNet.Proofs.Snapshot.Pausing

/-!
A snapshot gives back the net it was taken of. The table describes each token of
the net, the records of a place and of a step name what they held, and a net
within comes back from the snapshot within. A second snapshot differs from the
first in nothing but the time.
-/

namespace RecipeNet

open TokenTable (Reads resolve)

mutual
/-- The net with all its steps, and the nets within, asleep. -/
def Engine.slumber : Engine → Engine
  | ⟨plan, fingerprint, _, holdings, slots, completion, haltedBy⟩ =>
    ⟨plan, fingerprint, .paused, holdings, Slot.allSlumber slots, completion, haltedBy⟩

def Slot.allSlumber : List Slot → List Slot
  | [] => []
  | ⟨step, inputs, outputs, _, tr⟩ :: rest =>
    ⟨step, inputs, outputs, .paused, tr.slumber⟩ :: Slot.allSlumber rest

def Transition.slumber : Transition → Transition
  | .busy nest t child => .busy nest t child.slumber
  | .pass output => .pass output
  | .split => .split
  | .join inputs pending => .join inputs pending
  | .task activity held => .task activity held
  | .routed rule seen => .routed rule seen
  | .idle nest => .idle nest
end

def Slot.slumber (slot : Slot) : Slot :=
  { slot with phase := .paused, transition := slot.transition.slumber }

mutual
def Snapshot.stamped (time : Timestamp) : Snapshot → Snapshot
  | ⟨planId, version, fingerprint, _, tokens, places, transitions⟩ =>
    ⟨planId, version, fingerprint, time, tokens, places, StepRecord.allStamped time transitions⟩

def StepRecord.allStamped (time : Timestamp) : List StepRecord → List StepRecord
  | [] => []
  | ⟨step, state⟩ :: rest => ⟨step, state.stamped time⟩ :: StepRecord.allStamped time rest

def StepState.stamped (time : Timestamp) : StepState → StepState
  | .nested id inner => .nested id (inner.stamped time)
  | .join generations => .join generations
  | .task held => .task held
end

theorem Slot.allSlumber_eq (slots : List Slot) : allSlumber slots = slots.map slumber := by
  induction slots with
  | nil => rfl
  | cons slot rest ih =>
    cases slot
    rw [allSlumber, ih]
    rfl

theorem Engine.slumber_eq (e : Engine) :
    e.slumber = { e with status := .paused, slots := e.slots.map Slot.slumber } := by
  cases e
  rw [slumber, Slot.allSlumber_eq]

theorem StepRecord.allStamped_eq (time : Timestamp) (records : List StepRecord) :
    allStamped time records = records.map fun r => ⟨r.step, r.state.stamped time⟩ := by
  induction records with
  | nil => rfl
  | cons r rest ih =>
    cases r
    rw [allStamped, ih]
    rfl

theorem Snapshot.stamped_eq (time : Timestamp) (snapshot : Snapshot) : snapshot.stamped time =
    { snapshot with
      capturedAt := time
      transitions := snapshot.transitions.map fun r => ⟨r.step, r.state.stamped time⟩ } := by
  cases snapshot
  rw [stamped, StepRecord.allStamped_eq]

namespace TokenTable

variable {records : List TokenRecord} {ts us vs : List Token} {t u : Token}

/-- An identity of a token that is described stands for the token. -/
theorem Reads.resolved (ht : Reads records t) (known : ∀ t ∈ ts, Reads records t)
    (h : resolve ts t.id = .ok u) : u = t := by
  obtain ⟨hmem, hid⟩ := resolve_ok h
  exact (known u hmem).unique ht hid

theorem resolved_all (hreads : ∀ t ∈ us, Reads records t) (known : ∀ t ∈ ts, Reads records t)
    (h : List.Forall₂ (fun id t => resolve ts id = .ok t) (us.map (·.id)) vs) : vs = us := by
  induction us generalizing vs with
  | nil =>
    cases h
    rfl
  | cons u us ih =>
    obtain ⟨hu, hus⟩ := List.forall_mem_cons.1 hreads
    cases h with
    | cons hone hrest => rw [hu.resolved known hone, ih hus hrest]

end TokenTable

namespace Generation

variable {records : List TokenRecord}

/-- Tokens that a table describes are determined by their identities. -/
theorem slots_of_ids {us vs : List (Option Token)}
    (hus : ∀ t ∈ us.filterMap id, Reads records t) (hvs : ∀ t ∈ vs.filterMap id, Reads records t)
    (h : us.map (fun slot => slot.map (·.id)) = vs.map fun slot => slot.map (·.id)) : us = vs := by
  induction us generalizing vs with
  | nil => exact (List.map_eq_nil_iff.1 h.symm).symm
  | cons u us ih =>
    cases vs with
    | nil => cases h
    | cons v vs =>
      obtain ⟨hhead, htail⟩ := List.cons.inj h
      have hsame : u = v := by
        cases u with
        | none =>
          cases v with
          | none => rfl
          | some v => cases hhead
        | some u =>
          cases v with
          | none => cases hhead
          | some v =>
            have hu := hus u (List.mem_filterMap.2 ⟨some u, List.mem_cons_self, rfl⟩)
            have hv := hvs v (List.mem_filterMap.2 ⟨some v, List.mem_cons_self, rfl⟩)
            rw [hu.unique hv (Option.some.inj hhead)]
      have hrest : us = vs := by
        refine ih (fun t ht => hus t ?_) (fun t ht => hvs t ?_) htail
        · obtain ⟨slot, hmem, hslot⟩ := List.mem_filterMap.1 ht
          exact List.mem_filterMap.2 ⟨slot, List.mem_cons_of_mem _ hmem, hslot⟩
        · obtain ⟨slot, hmem, hslot⟩ := List.mem_filterMap.1 ht
          exact List.mem_filterMap.2 ⟨slot, List.mem_cons_of_mem _ hmem, hslot⟩
      rw [hsame, hrest]

variable {step : String} {inputs : Nat} {tokens : List Token} {g g' : Generation}

theorem of_own_record (hreads : ∀ t ∈ g.tokens, Reads records t)
    (known : ∀ t ∈ tokens, Reads records t) (h : ofRecord step inputs tokens g.record = .ok g') :
    g' = g := by
  obtain ⟨hrecord, -, hmem⟩ := ofRecord_ok h
  obtain ⟨hparent, hslots⟩ := GenerationRecord.mk.inj hrecord
  obtain ⟨parent, slots⟩ := g
  obtain ⟨parent', slots'⟩ := g'
  obtain ⟨hown, hsiblings⟩ := List.forall_mem_cons.1 hreads
  obtain ⟨hown', hsiblings'⟩ := List.forall_mem_cons.1 fun t ht => known t (hmem t ht)
  have hsame : parent' = parent := hown'.unique hown hparent
  have hrest : slots' = slots := slots_of_ids hsiblings' hsiblings hslots
  rw [hsame, hrest]

theorem of_own_records {pending pending' : List Generation}
    (hreads : ∀ t ∈ pending.flatMap (·.tokens), Reads records t)
    (known : ∀ t ∈ tokens, Reads records t)
    (h : (pending.map record).mapM (ofRecord step inputs tokens) = .ok pending') :
    pending' = pending := by
  have hall := forall₂_of_mapM h
  clear h
  induction pending generalizing pending' with
  | nil =>
    cases hall
    rfl
  | cons g rest ih =>
    cases hall with
    | cons hone hrest =>
      have hg : ∀ t ∈ g.tokens, Reads records t := fun t ht =>
        hreads t (List.mem_flatMap.2 ⟨g, List.mem_cons_self, ht⟩)
      rw [of_own_record hg known hone, ih (fun t ht => ?_) hrest]
      obtain ⟨g', hg', ht⟩ := List.mem_flatMap.1 ht
      exact hreads t (List.mem_flatMap.2 ⟨g', List.mem_cons_of_mem _ hg', ht⟩)

end Generation

namespace Transition

variable {records : List TokenRecord} {now : Timestamp} {tr tr' : Transition} {step : String}
  {tokens : List Token} {state : StepState}

/-- A transition that is given back what was recorded of it is as it was, if the
net within comes back. -/
theorem Takes.own (h : tr.outline.Takes step tokens state tr') (recorded : tr.state? now = some state)
    (hreads : ∀ t ∈ tr.tokens, Reads records t) (known : ∀ t ∈ tokens, Reads records t)
    (inside : ∀ nest t child inner fresh child', tr = .busy nest t child →
      (child.pause now).2 = .ok inner → Engine.build nest.fitter nest.plan = .ok fresh →
      fresh.restore inner = (child', .ok ()) → child' = child.slumber) : tr' = tr.slumber := by
  cases tr with
  | join inputs pending =>
    rw [state?] at recorded
    split at recorded
    · cases recorded
    · cases recorded
      cases h with
      | join rebuilt =>
        rw [Generation.of_own_records hreads known rebuilt]
        rfl
  | task activity held =>
    rw [state?] at recorded
    split at recorded
    · cases recorded
    · cases recorded
      cases h with
      | task resolved =>
        rw [TokenTable.resolved_all hreads known (forall₂_of_mapM resolved)]
        rfl
  | busy nest t child =>
    obtain ⟨inner, hinner, rfl⟩ := Option.map_eq_some_iff.1 recorded
    cases hpause : (child.pause now).2 with
    | error f =>
      rw [hpause] at hinner
      cases hinner
    | ok inner' =>
      rw [hpause] at hinner
      cases hinner
      cases h with
      | nested isNest resolved built restored =>
        cases isNest
        have ht := hreads t List.mem_cons_self
        rw [ht.resolved known resolved, inside _ _ _ _ _ _ rfl hpause built restored]
        rfl
  | pass => cases recorded
  | split => cases recorded
  | routed => cases recorded
  | idle => cases recorded

/-- A transition of which nothing is recorded has taken in nothing. -/
theorem slumber_of_silent (silent : tr.state? now = none)
    (snaps : ∀ nest t child, tr = .busy nest t child → ∃ inner, (child.pause now).2 = .ok inner)
    (unrouted : ∀ rule seen, tr ≠ .routed rule seen) : tr.slumber = tr.outline := by
  cases tr with
  | join inputs pending =>
    rw [state?] at silent
    split at silent
    · rename_i hnone
      rw [List.isEmpty_iff.1 hnone]
      rfl
    · cases silent
  | task activity held =>
    rw [state?] at silent
    split at silent
    · rename_i hnone
      rw [List.isEmpty_iff.1 hnone]
      rfl
    · cases silent
  | busy nest t child =>
    obtain ⟨inner, hinner⟩ := snaps nest t child rfl
    rw [state?, hinner] at silent
    cases silent
  | routed rule seen => exact absurd rfl (unrouted rule seen)
  | pass => rfl
  | split => rfl
  | idle => rfl

end Transition

namespace Engine

variable {records : List TokenRecord} {now later : Timestamp} {e f f' : Engine}

theorem filter_at {α : Type} {P : α → Bool} {xs : List α} {p : Nat} {x : α}
    (hat : xs[p]? = some x) (only : ∀ i y, xs[i]? = some y → (P y = true ↔ i = p)) :
    xs.filter P = [x] := by
  induction xs generalizing p with
  | nil => cases hat
  | cons y rest ih =>
    have hhead := only 0 y rfl
    cases p with
    | zero =>
      cases hat
      have hnone : rest.filter P = [] := by
        refine List.filter_eq_nil_iff.2 fun z hz hP => ?_
        obtain ⟨i, hi⟩ := List.mem_iff_getElem?.1 hz
        have hindex := (only (i + 1) z hi).1 hP
        omega
      rw [List.filter_cons, if_pos (hhead.2 rfl), hnone]
    | succ p =>
      have hskip : ¬ P y = true := fun hP => by
        have hindex := hhead.1 hP
        omega
      rw [List.filter_cons, if_neg hskip]
      refine ih hat fun i z hi => (only (i + 1) z hi).trans ?_
      omega

/-- Among things with different names each is found where it is. -/
theorem findIdx?_name {α : Type} {name : α → String} {xs : List α}
    (distinct : (xs.map name).Nodup) {p : Nat} {x : α} (hat : xs[p]? = some x) :
    xs.findIdx? (name · == name x) = some p := by
  obtain ⟨hlt, hp⟩ := List.getElem?_eq_some_iff.1 hat
  refine List.findIdx?_eq_some_iff_getElem.2 ⟨hlt, by simp [hp], fun j hj hsame => ?_⟩
  have hwidth : (xs.map name).length = xs.length := List.length_map _
  have hname : (xs.map name).get ⟨j, by omega⟩ = (xs.map name).get ⟨p, by omega⟩ := by
    rw [List.get_eq_getElem, List.get_eq_getElem, List.getElem_map, List.getElem_map, hp]
    simpa using hsame
  have hindex := Fin.mk.inj (List.nodup_iff_injective_get.1 distinct hname)
  omega

theorem filter_place {holdings : List Holding} (distinct : (holdings.map (·.place.id)).Nodup)
    {p : Nat} {h : Holding} (hat : holdings[p]? = some h) :
    holdings.filter (fun h => placeIndex? holdings h.place.id == some p) = [h] := by
  refine filter_at hat fun i h' hi => ?_
  rw [placeIndex?, findIdx?_name distinct hi, beq_iff_eq, Option.some.injEq]

/-- Places are filled with what was recorded of them. -/
theorem contents_of_records {holdings hs : List Holding} {tokens : List Token}
    {held : List (Nat × List Token)} (known : ∀ t ∈ tokens, Reads records t)
    (hreads : ∀ h ∈ hs, ∀ t ∈ h.tokens, Reads records t)
    (hall : List.Forall₂ (fun r x => placeIndex? holdings r.place = some x.1 ∧
      List.Forall₂ (fun id t => resolve tokens id = .ok t) r.tokens x.2) (Holding.records hs) held)
    (p : Nat) : (held.filter (·.1 == p)).flatMap (·.2) =
      (hs.filter fun h => placeIndex? holdings h.place.id == some p).flatMap (·.tokens) := by
  induction hs generalizing held with
  | nil =>
    cases hall
    rfl
  | cons h rest ih =>
    obtain ⟨hhere, hrest⟩ := List.forall_mem_cons.1 hreads
    by_cases hempty : h.tokens = []
    · have hrecords : Holding.records (h :: rest) = Holding.records rest := by
        simp [Holding.records, hempty]
      rw [hrecords] at hall
      rw [ih hrest hall, List.filter_cons]
      by_cases hp : (placeIndex? holdings h.place.id == some p) = true
      · rw [if_pos hp, List.flatMap_cons, hempty, List.nil_append]
      · rw [if_neg hp]
    · have hrecords : Holding.records (h :: rest) =
          ⟨h.place.id, h.tokens.map (·.id)⟩ :: Holding.records rest := by
        simp [Holding.records, hempty]
      rw [hrecords] at hall
      cases hall with
      | @cons _ x _ _ hone hlater =>
        obtain ⟨hindex, hresolved⟩ := hone
        have htokens := TokenTable.resolved_all hhere known hresolved
        rw [List.filter_cons, List.filter_cons, hindex]
        by_cases hp : x.1 = p
        · simp [hp, htokens, ih hrest hlater]
        · simp [hp, ih hrest hlater]

theorem fill_records {holdings : List Holding} {tokens : List Token}
    {contents : List (Nat × List Token)} (distinct : (holdings.map (·.place.id)).Nodup)
    (known : ∀ t ∈ tokens, Reads records t)
    (hreads : ∀ h ∈ holdings, ∀ t ∈ h.tokens, Reads records t)
    (hcontents : Snapshot.contents (holdings.map fun h => .new h.place) tokens
      (Holding.records holdings) = .ok contents) :
    fill (holdings.map fun h => .new h.place) contents = holdings := by
  have hindex : ∀ id, placeIndex? (holdings.map fun h => .new h.place) id =
      placeIndex? holdings id := by
    intro id
    rw [placeIndex?, List.findIdx?_map]
    rfl
  have hall := Snapshot.contents_ok hcontents
  simp only [hindex] at hall
  apply List.ext_getElem?
  intro p
  rw [fill_get, List.getElem?_map]
  cases hat : holdings[p]? with
  | none => rfl
  | some h =>
    have hheld := contents_of_records known hreads hall p
    rw [filter_place distinct hat] at hheld
    simp only [Option.map_some, Holding.new, hheld, List.flatMap_cons, List.flatMap_nil,
      List.append_nil, List.nil_append]

theorem mem_tokens {t : Token} (h : t ∈ e.tokens) : e.MentionsAt [] t := by
  rcases List.mem_append.1 h with hplace | hstep
  · obtain ⟨hold, hmem, ht⟩ := List.mem_flatMap.1 hplace
    exact .place hmem ht
  · obtain ⟨slot, hs, ht⟩ := List.mem_flatMap.1 hstep
    exact .step hs ht

/-- The table of a snapshot describes the tokens of the net itself. -/
theorem captured_reads (hcoherent : e.lore.Coherent) {now : Timestamp} {t : Token}
    (ht : t ∈ e.tokens) : TokenTable.Reads (e.captured now).tokens t := by
  have hclosed : ∀ t ∈ e.lore, ∀ parent, t.parent = some parent → parent ∈ e.lore :=
    e.lore_closed []
  exact TokenTable.registerAll_reads hclosed (hcoherent []) (fun _ hu => mem_tokens hu) ht

/-- Pausing puts a net to sleep. -/
theorem pause_sleepy (h : e.Throughout Sleepy) (now : Timestamp) :
    e.pause now = (e.slumber, .ok (e.captured now)) := by
  have hpausable : e.Pausable := h.imp fun e he => by
    rw [he.next]
    rfl
  rw [pause_eq hpausable]
  have hfst : e.hushed now = e.slumber := by
    induction h with
    | @intro e here inside ih =>
      have hslots : ∀ slot ∈ e.slots, slot.hushed now = slot.slumber := by
        intro slot hs
        unfold Slot.hushed Slot.slumber
        rw [here.phases slot hs]
        cases htr : slot.transition with
        | busy nest t child =>
          have hchild := hpausable.child hs htr
          have hsame := ih slot hs nest t child htr hchild
          simp only [Transition.hushed, Transition.slumber, pause_eq hchild, hsame]
        | _ => rfl
      rw [hushed, slumber_eq, List.map_congr_left hslots, here.next]
      rfl
  rw [hfst]

theorem slumber_asleep (h : e.Throughout Sleepy) : e.slumber.Asleep := by
  have hasleep := asleep_of_pause h default
  rwa [pause_sleepy h] at hasleep

/-- What is recorded of a step, but for the time, is what is recorded of it asleep. -/
theorem captured_slumber (h : e.Throughout Sleepy) (now later : Timestamp) :
    e.slumber.captured later = (e.captured now).stamped later := by
  induction h with
  | @intro e here inside ih =>
    have hrecords : ∀ slot ∈ e.slots, slot.slumber.record? later =
        (slot.record? now).map fun r => ⟨r.step, r.state.stamped later⟩ := by
      intro slot hs
      unfold Slot.record?
      rw [Option.map_map]
      have hstep : slot.slumber.step = slot.step := rfl
      rw [hstep]
      unfold Slot.slumber
      cases htr : slot.transition with
      | busy nest t child =>
        have hchild := inside slot hs nest t child htr
        simp only [Transition.slumber, Transition.state?, pause_sleepy hchild,
          pause_sleepy (slumber_asleep hchild).sleepy, ih slot hs nest t child htr]
        rfl
      | join inputs pending =>
        simp only [Transition.slumber, Transition.state?]
        split <;> rfl
      | task activity held =>
        simp only [Transition.slumber, Transition.state?]
        split <;> rfl
      | _ => rfl
    have htokens : e.slumber.tokens = e.tokens := by
      rw [slumber_eq]
      unfold tokens
      rw [List.flatMap_map]
      have hkept : ∀ slot : Slot, slot.slumber.transition.tokens = slot.transition.tokens := by
        intro slot
        unfold Slot.slumber
        cases slot.transition <;> rfl
      simp only [hkept]
    have htransitions : e.slumber.slots.filterMap (Slot.record? later) =
        (e.slots.filterMap (Slot.record? now)).map fun r => ⟨r.step, r.state.stamped later⟩ := by
      rw [slumber_eq, List.filterMap_map, List.map_filterMap]
      exact List.filterMap_congr hrecords
    rw [Snapshot.stamped_eq]
    unfold captured
    rw [htokens, htransitions, slumber_eq]

/-- A record of a snapshot is of the step that it names. -/
theorem record_of_slot (distinct : (e.slots.map (·.step)).Nodup) {i : Nat} {slot : Slot}
    (hi : e.slots[i]? = some slot) {r : StepRecord} (hr : r ∈ (e.captured now).transitions)
    (hindex : slotIndex? (e.slots.map Slot.outline) r.step = some i) :
    slot.transition.state? now = some r.state := by
  obtain ⟨other, hother, hrecord⟩ := List.mem_filterMap.1 hr
  obtain ⟨state, hstate, rfl⟩ := Option.map_eq_some_iff.1 hrecord
  have hat : (e.slots.map Slot.outline)[i]? = some slot.outline := by
    rw [List.getElem?_map, hi]
    rfl
  have hstep : slot.outline.step = other.step := Slot.slotIndex?_some hindex hat
  obtain rfl := List.inj_on_of_nodup_map distinct hother (List.mem_of_getElem? hi) hstep.symm
  exact hstate

/-- A step of which something is recorded is found by its name. -/
theorem slot_of_record (distinct : (e.slots.map (·.step)).Nodup) {i : Nat} {slot : Slot}
    (hi : e.slots[i]? = some slot) {state : StepState}
    (hstate : slot.transition.state? now = some state) :
    ⟨slot.step, state⟩ ∈ (e.captured now).transitions ∧
      slotIndex? (e.slots.map Slot.outline) slot.step = some i := by
  refine ⟨List.mem_filterMap.2 ⟨slot, List.mem_of_getElem? hi, ?_⟩, ?_⟩
  · rw [Slot.record?, hstate]
    rfl
  · rw [slotIndex?, List.findIdx?_map]
    exact findIdx?_name distinct hi

/-- Steps that are given back what was recorded of them are as they were, but
asleep, if the nets within come back. -/
theorem restoreAll_captured {plan : String} {tokens : List Token} (hfits : e.Fits .standard)
    (known : ∀ t ∈ tokens, Reads records t) (hreads : ∀ t ∈ e.tokens, Reads records t)
    (hsnaps : ∀ slot ∈ e.slots, ∀ nest t child, slot.transition = .busy nest t child →
      ∃ inner, (child.pause now).2 = .ok inner)
    (inside : ∀ slot ∈ e.slots, ∀ nest t child inner fresh child',
      slot.transition = .busy nest t child → (child.pause now).2 = .ok inner →
      build nest.fitter nest.plan = .ok fresh → fresh.restore inner = (child', .ok ()) →
      child' = child.slumber)
    (hok : (Slot.restoreAll plan tokens (e.slots.map Slot.outline)
      (e.captured now).transitions).2 = .ok ()) :
    (Slot.restoreAll plan tokens (e.slots.map Slot.outline) (e.captured now).transitions).1.map
      (fun slot => { slot with phase := slot.phase.suspend }) = e.slots.map Slot.slumber := by
  obtain ⟨hlength, hspec⟩ := Slot.restoreAll_spec plan tokens (e.slots.map Slot.outline)
    (e.captured now).transitions
  rw [List.length_map] at hlength
  apply List.ext_getElem?
  intro i
  rw [List.getElem?_map, List.getElem?_map]
  cases hi : e.slots[i]? with
  | none =>
    have hnone := List.getElem?_eq_none_iff.1 hi
    rw [List.getElem?_eq_none (by omega)]
    rfl
  | some slot =>
    have hs := List.mem_of_getElem? hi
    have hat : (e.slots.map Slot.outline)[i]? = some slot.outline := by
      rw [List.getElem?_map, hi]
      rfl
    obtain ⟨tr, htr, hcases⟩ := hspec i slot.outline hat
    have hsame : tr = slot.transition.slumber := by
      rcases hcases with ⟨rfl, hsilent⟩ | ⟨r, hr, hindex, htakes⟩
      · have hnone : slot.transition.state? now = none := by
          by_contra hsome
          obtain ⟨state, hstate⟩ := Option.ne_none_iff_exists'.1 hsome
          obtain ⟨hmem, hindex⟩ := slot_of_record hfits.distinctSteps hi hstate
          exact hsilent hok _ hmem hindex
        exact (Transition.slumber_of_silent hnone (hsnaps slot hs) (hfits.unrouted hs)).symm
      · have hstate := record_of_slot hfits.distinctSteps hi hr hindex
        refine htakes.own hstate (fun t ht => hreads t ?_) known (inside slot hs)
        exact List.mem_append_right _ (List.mem_flatMap.2 ⟨slot, hs, ht⟩)
    rw [htr, hsame]
    rfl

/-- What comes of a snapshot in a new net is the net it was taken of, asleep. -/
theorem restore_captured (hsleepy : e.Throughout Sleepy) (hfits : e.Throughout (Fits .standard))
    (hcoherent : e.lore.Coherent) (hrestore : e.outline.restore (e.captured now) = (f', .ok ())) :
    f' = e.slumber := by
  induction hsleepy generalizing f' with
  | @intro e here inside ih =>
    obtain ⟨tokens, contents, htokens, -, hcontents, hok, rfl⟩ := (loads_of_restore hrestore).loaded
    have hknown : ∀ t ∈ tokens, Reads (e.captured now).tokens t := fun t =>
      TokenTable.tokens_reads htokens
    have hreads : ∀ t ∈ e.tokens, Reads (e.captured now).tokens t := fun t =>
      captured_reads hcoherent
    have hdistinct : (e.holdings.map (·.place.id)).Nodup := by
      have hplaces := (Plan.sound_of_flaws (built_of_build hfits.here.1).sound).distinctPlaces
      rw [← hfits.here.places, List.map_map] at hplaces
      exact hplaces
    have hholdings : fill e.outline.holdings contents = e.holdings :=
      fill_records hdistinct hknown (fun h hh t ht =>
        hreads t (List.mem_append_left _ (List.mem_flatMap.2 ⟨h, hh, ht⟩))) hcontents
    have hslots := restoreAll_captured hfits.here hknown hreads
      (fun slot hs nest t child hbusy => by
        rw [pause_sleepy (inside slot hs nest t child hbusy)]
        exact ⟨_, rfl⟩)
      (fun slot hs nest t child inner fresh child' hbusy hinner hbuild hback => by
        have hchild := hfits.child hs hbusy
        have hbuilt := hchild.here.1
        rw [pause_sleepy (inside slot hs nest t child hbusy)] at hinner
        obtain rfl := Except.ok.inj hinner
        rw [hfits.here.2 slot hs nest t child hbusy,
          ← hfits.here.fitter Fitter.standard_regular hs hbusy] at hbuilt
        obtain rfl := Except.ok.inj (hbuilt.symm.trans hbuild)
        refine ih slot hs nest t child hbusy hchild (fun path u hu v hv hid => ?_) hback
        exact hcoherent (slot.step :: path) u (.nested hs hbusy hu) v (.nested hs hbusy hv) hid)
      hok
    have hsteps : e.outline.slots = e.slots.map Slot.outline := rfl
    have hcompletion : e.outline.completion = e.completion := here.completion.symm
    have hhalted : e.outline.haltedBy = e.haltedBy := here.haltedBy.symm
    rw [hholdings, hsteps, hslots, slumber_eq, hcompletion, hhalted]
    rfl

end Engine
end RecipeNet
