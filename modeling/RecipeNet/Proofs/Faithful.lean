import RecipeNet.Proofs.Recovery
import RecipeNet.Proofs.Safety
import RecipeNet.Proofs.Snapshot.File

/-!
Whether a restored net holds what its snapshot lists. The records of a place add up, but a
step that is recorded more than once keeps only what its last record says. So a snapshot
that has been accepted is loaded in full exactly if, at every depth, the last record of a
step lists all that is listed for the step.
-/

namespace RecipeNet

open TokenTable (Reads resolve)

/-- Records with a key, taken key by key, are all of them. -/
theorem perm_flatMap_filter {α β : Type} (key : α → String) (f : α → List β) {keys : List String}
    (distinct : keys.Nodup) {xs : List α} (covered : ∀ x ∈ xs, key x ∈ keys) :
    (keys.flatMap fun k => (xs.filter (key · == k)).flatMap f).Perm (xs.flatMap f) := by
  induction keys generalizing xs with
  | nil =>
    obtain rfl : xs = [] := List.eq_nil_iff_forall_not_mem.2 fun x hx => nomatch covered x hx
    exact .nil
  | cons k rest ih =>
    obtain ⟨hnew, hrest⟩ := List.nodup_cons.1 distinct
    have hothers : ∀ x ∈ xs.filter (fun x => !(key x == k)), key x ∈ rest := by
      intro x hx
      obtain ⟨hmem, hne⟩ := List.mem_filter.1 hx
      exact (List.mem_cons.1 (covered x hmem)).resolve_left (by simpa using hne)
    have hsame : (rest.flatMap fun k' => (xs.filter (key · == k')).flatMap f) =
        rest.flatMap fun k' => ((xs.filter fun x => !(key x == k)).filter (key · == k')).flatMap f := by
      refine List.flatMap_congr fun k' hk' => ?_
      rw [List.filter_filter]
      congr 1
      refine List.filter_congr fun x _ => ?_
      have hne : k' ≠ k := fun heq => hnew (heq ▸ hk')
      by_cases hx : key x = k' <;> simp [hx, hne]
    rw [List.flatMap_cons, hsame]
    refine ((ih hrest hothers).append_left _).trans ?_
    rw [← List.flatMap_append]
    exact (List.filter_append_perm (key · == k) xs).flatMap_right f

theorem TokenTable.ids_of_resolved {tokens ts : List Token} {ids : List TokenId}
    (h : List.Forall₂ (fun id t => resolve tokens id = .ok t) ids ts) : ts.map (·.id) = ids := by
  induction h with
  | nil => rfl
  | cons hid _ ih => rw [List.map_cons, ih, (TokenTable.resolve_ok hid).2]

def StepRecord.generations : StepRecord → List GenerationRecord
  | ⟨_, .join generations⟩ => generations
  | _ => []

def Transition.generations : Transition → List GenerationRecord
  | .join _ pending => pending.map (·.record)
  | _ => []

namespace Snapshot

def listedAt (s : Snapshot) (place : String) : List TokenId :=
  (s.places.filter (·.place == place)).flatMap (·.tokens)

def recordsOf (s : Snapshot) (step : String) : List StepRecord :=
  s.transitions.filter (·.step == step)

def listedBy (s : Snapshot) (step : String) : List TokenId :=
  (s.recordsOf step).flatMap taken

def lastOf? (records : List StepRecord) (step : String) : Option StepRecord :=
  records.reverse.find? (·.step == step)

/-- All that is listed for a step is in the last record of the step. -/
def Undivided (s : Snapshot) : Prop :=
  ∀ r ∈ s.transitions, ∀ last, lastOf? s.transitions r.step = some last →
    taken r ⊆ taken last ∧ r.generations ⊆ last.generations

section

variable {s : Snapshot} {records : List StepRecord} {r last : StepRecord} {step : String}

theorem lastOf?_cons (r : StepRecord) (records : List StepRecord) (step : String) :
    lastOf? (r :: records) step =
      (lastOf? records step).or (if r.step = step then some r else none) := by
  simp [lastOf?, List.find?_append, List.find?_cons, List.find?_nil]
  split <;> simp_all

theorem lastOf?_some (h : lastOf? records step = some last) : last ∈ records ∧ last.step = step :=
  ⟨List.mem_reverse.1 (List.mem_of_find?_eq_some h), by simpa using List.find?_some h⟩

theorem lastOf?_isSome (h : r ∈ records) : ∃ last, lastOf? records r.step = some last := by
  refine Option.isSome_iff_exists.1 (List.find?_isSome.2 ⟨r, List.mem_reverse.2 h, ?_⟩)
  exact beq_self_eq_true _

theorem mem_recordsOf : r ∈ s.recordsOf step ↔ r ∈ s.transitions ∧ r.step = step := by
  simp [recordsOf, List.mem_filter]

theorem recordsOf_eq_nil (h : lastOf? s.transitions step = none) : s.recordsOf step = [] := by
  refine List.eq_nil_iff_forall_not_mem.2 fun r hr => ?_
  obtain ⟨hmem, rfl⟩ := mem_recordsOf.1 hr
  obtain ⟨last, hlast⟩ := lastOf?_isSome hmem
  cases h.symm.trans hlast

/-- In a snapshot that claims no token twice, a token tells which record took it. -/
theorem eq_of_taken {r' : StepRecord} (claimed : (claims s.places s.transitions).Nodup)
    (hr : r ∈ s.transitions) (hr' : r' ∈ s.transitions) {id : TokenId} (hid : id ∈ taken r)
    (hid' : id ∈ taken r') : r = r' := by
  have hsteps := (List.nodup_flatMap.1 (List.nodup_append.1 claimed).2.1).2
  by_contra hne
  have : Std.Symm (Function.onFun List.Disjoint taken) := ⟨fun _ _ h => h.symm⟩
  exact hsteps.forall hr hr' hne hid hid'

/-- A snapshot with no more than one record of a step does not divide what it lists. -/
theorem undivided_of_nodup (h : (s.transitions.map (·.step)).Nodup) : s.Undivided := by
  intro r hr last hlast
  obtain ⟨hmem, hstep⟩ := lastOf?_some hlast
  obtain rfl := List.inj_on_of_nodup_map h hmem hr hstep
  exact ⟨List.Subset.refl _, List.Subset.refl _⟩

end

end Snapshot

open Snapshot (claims taken lastOf? lastOf?_some lastOf?_isSome mem_recordsOf eq_of_taken)

namespace Transition

variable {step : String} {tokens : List Token} {tr tr' : Transition} {state : StepState}

/-- A transition that has taken a captured state has what the state lists. -/
theorem Takes.lists (h : tr.Takes step tokens state tr') :
    tr'.taken.map (·.id) = Snapshot.taken ⟨step, state⟩ ∧
      tr'.generations = StepRecord.generations ⟨step, state⟩ := by
  cases h with
  | join rebuilt =>
    obtain ⟨hrecords, -⟩ := Generation.records_of_mapM rebuilt
    exact ⟨rfl, hrecords.symm⟩
  | task resolved => exact ⟨TokenTable.ids_of_resolved (forall₂_of_mapM resolved), rfl⟩
  | nested _ resolved =>
    exact ⟨congrArg (fun id => [id]) (TokenTable.resolve_ok resolved).2, rfl⟩

/-- A new transition has nothing. -/
theorem lists_nothing (isNew : tr.outline = tr) (holdsNothing : tr.tokens = []) :
    tr.taken = [] ∧ tr.generations = [] := by
  cases tr with
  | task => exact ⟨holdsNothing, rfl⟩
  | join =>
    cases isNew
    exact ⟨rfl, rfl⟩
  | busy => cases isNew
  | _ => exact ⟨rfl, rfl⟩

end Transition

namespace Slot

variable {plan : String} {tokens : List Token} {slots : List Slot} {records : List StepRecord}

/-- Each step takes what the last record of it says, and is as before if there is none. -/
theorem restoreAll_last (distinct : (slots.map (·.step)).Nodup)
    (hok : (restoreAll plan tokens slots records).2 = .ok ()) {i : Nat} {slot : Slot}
    (hi : slots[i]? = some slot) : ∃ tr,
      (restoreAll plan tokens slots records).1[i]? = some { slot with transition := tr } ∧
      ((lastOf? records slot.step = none ∧ tr = slot.transition) ∨
        ∃ r, lastOf? records slot.step = some r ∧
          slot.transition.Takes r.step tokens r.state tr) := by
  induction records generalizing slots slot with
  | nil =>
    rw [restoreAll]
    refine ⟨slot.transition, ?_, .inl ⟨rfl, rfl⟩⟩
    cases slot
    exact hi
  | cons r rest ih =>
    obtain ⟨step, state⟩ := r
    rw [restoreAll] at hok ⊢
    cases hindex : Engine.slotIndex? slots step with
    | none => simp [hindex] at hok
    | some j =>
      simp only [hindex] at hok ⊢
      cases hj : slots[j]? with
      | none => simp [hj] at hok
      | some target =>
        simp only [hj] at hok ⊢
        cases htake : Transition.restored plan step tokens target.transition state with
        | error f => simp [htake] at hok
        | ok tr =>
          simp only [htake] at hok ⊢
          obtain rfl := slotIndex?_some hindex hj
          have hfirst := Transition.takes_of_restored htake
          have hrest := @ih (slots.set j { target with transition := tr })
          rw [steps_set hj] at hrest
          rw [Snapshot.lastOf?_cons]
          -- The step of this record keeps what it is given unless a later record names it.
          by_cases hij : j = i
          · subst hij
            obtain rfl := Option.some.inj (hj.symm.trans hi)
            have hlt := (List.getElem?_eq_some_iff.1 hj).1
            obtain ⟨last, hlast, hcases⟩ := hrest distinct hok (List.getElem?_set_self hlt)
            refine ⟨last, hlast, .inr ?_⟩
            rcases hcases with ⟨hnone, rfl⟩ | ⟨r, hr, htakes⟩
            · exact ⟨_, by rw [hnone, Option.none_or, if_pos rfl], hfirst⟩
            · exact ⟨r, by rw [hr, Option.some_or], htakes.congr hfirst.outline⟩
          · have hother : ¬ target.step = slot.step := by
              intro hsame
              have hat : slots.findIdx? (·.step == slot.step) = some i :=
                Engine.findIdx?_name distinct hi
              rw [← hsame] at hat
              exact hij (Option.some.inj (hindex.symm.trans hat))
            rw [if_neg hother, Option.or_none]
            exact hrest distinct hok (by rw [List.getElem?_set_ne hij, hi])

/-- Every record is of a step. -/
theorem restoreAll_named (hok : (restoreAll plan tokens slots records).2 = .ok ()) {r : StepRecord}
    (hr : r ∈ records) : ∃ slot ∈ slots, slot.step = r.step := by
  induction records generalizing slots with
  | nil => cases hr
  | cons r rest ih =>
    obtain ⟨step, state⟩ := r
    rw [restoreAll] at hok
    cases hindex : Engine.slotIndex? slots step with
    | none => simp [hindex] at hok
    | some j =>
      simp only [hindex] at hok
      cases hj : slots[j]? with
      | none => simp [hj] at hok
      | some target =>
        simp only [hj] at hok
        cases htake : Transition.restored plan step tokens target.transition state with
        | error f => simp [htake] at hok
        | ok tr =>
          simp only [htake] at hok
          rcases List.mem_cons.1 hr with rfl | hr
          · exact ⟨target, List.mem_of_getElem? hj, slotIndex?_some hindex hj⟩
          · obtain ⟨slot, hslot, hstep⟩ := ih hok hr
            have hmem : slot.step ∈ (slots.set j { target with transition := tr }).map (·.step) :=
              List.mem_map_of_mem hslot
            rw [steps_set hj] at hmem
            obtain ⟨other, hother, hsame⟩ := List.mem_map.1 hmem
            exact ⟨other, hother, hsame.trans hstep⟩

end Slot

namespace Engine

variable {fitter : Fitter} {plan : Plan} {e e' : Engine} {s : Snapshot}

/-- A net holds what a snapshot lists, once, and nothing else. -/
structure Holds (e : Engine) (s : Snapshot) : Prop where
  /-- A place has the tokens of all its records. -/
  places : ∀ h ∈ e.holdings, (h.tokens.map (·.id)).Perm (s.listedAt h.place.id)
  /-- A step has taken the tokens of all its records. -/
  steps : ∀ slot ∈ e.slots, (slot.transition.taken.map (·.id)).Perm (s.listedBy slot.step)
  joins : ∀ slot ∈ e.slots, ∀ g, g ∈ slot.transition.generations ↔
    ∃ r ∈ s.recordsOf slot.step, g ∈ r.generations
  nests : ∀ slot ∈ e.slots, ∀ id,
    (∃ nest t child, slot.transition = .busy nest t child ∧ t.id = id) ↔
      ∃ inner, ⟨slot.step, .nested id inner⟩ ∈ s.transitions
  /-- Whatever is listed is listed for a place or a step of the net. -/
  named : (∀ r ∈ s.places, ∃ h ∈ e.holdings, h.place.id = r.place) ∧
    ∀ r ∈ s.transitions, ∃ slot ∈ e.slots, slot.step = r.step
  /-- The tokens are those of the table. -/
  tokens : (∀ h ∈ e.holdings, ∀ t ∈ h.tokens, Reads s.tokens t) ∧
    ∀ slot ∈ e.slots, ∀ t ∈ slot.transition.tokens, Reads s.tokens t
  once : e.Exclusive

/-- A net holds what a snapshot lists, and the nets within hold what the snapshots within
list. -/
inductive Mirrors : Engine → Snapshot → Prop
  | intro {e : Engine} {s : Snapshot} (here : e.Holds s)
      (inside : ∀ slot ∈ e.slots, ∀ nest t child inner, slot.transition = .busy nest t child →
        ⟨slot.step, .nested t.id inner⟩ ∈ s.transitions → Mirrors child inner) : Mirrors e s

/-- What a place comes to hold are the tokens of all its records. -/
theorem contents_ids {holdings : List Holding} {tokens : List Token} {places : List PlaceRecord}
    {contents : List (Nat × List Token)} (distinct : (holdings.map (·.place.id)).Nodup)
    (hcontents : Snapshot.contents holdings tokens places = .ok contents) {p : Nat} {h : Holding}
    (hp : holdings[p]? = some h) :
    ((contents.filter (·.1 == p)).flatMap (·.2)).map (·.id) =
      (places.filter (·.place == h.place.id)).flatMap (·.tokens) := by
  have hall := Snapshot.contents_ok hcontents
  have hat : placeIndex? holdings h.place.id = some p := findIdx?_name distinct hp
  clear hcontents
  induction hall with
  | nil => rfl
  | @cons r x places contents hone _ ih =>
    obtain ⟨hindex, hresolved⟩ := hone
    have hids := TokenTable.ids_of_resolved hresolved
    have hsame : x.1 = p ↔ r.place = h.place.id := by
      constructor
      · rintro rfl
        obtain ⟨hlt, hplace, -⟩ := List.findIdx?_eq_some_iff_getElem.1 hindex
        rw [List.getElem?_eq_getElem hlt] at hp
        obtain rfl := Option.some.inj hp
        exact (beq_iff_eq.1 hplace).symm
      · intro hplace
        rw [hplace, hat] at hindex
        exact (Option.some.inj hindex).symm
    by_cases hx : x.1 = p
    · simp [hx, hsame.1 hx, ih, hids]
    · have hr : ¬ r.place = h.place.id := fun hr => hx (hsame.2 hr)
      simp [hx, hr, ih]

theorem Built.distinctPlaces (h : Built fitter plan e) : (e.holdings.map (·.place.id)).Nodup := by
  have hplaces := (Plan.sound_of_flaws h.sound).distinctPlaces
  rw [h.holdings, List.map_map]
  exact hplaces

theorem Built.distinctSteps (hbuild : build fitter plan = .ok e) :
    (e.slots.map (·.step)).Nodup :=
  (Fits.of_build hbuild).distinctSteps

theorem Loads.claimed (h : e.Loads s e') : (claims s.places s.transitions).Nodup := by
  obtain ⟨tokens, contents, -, hrepeated, -⟩ := h.loaded
  exact (Snapshot.repeated?_eq_none.1 hrepeated).1

/-- Where the records of a net's snapshot put tokens, by place. -/
theorem Loads.listedAt (h : e.Loads s e') (hb : Built fitter plan e) {hold : Holding}
    (hmem : hold ∈ e'.holdings) : hold.tokens.map (·.id) = s.listedAt hold.place.id := by
  obtain ⟨tokens, contents, -, -, hcontents, -, rfl⟩ := h.loaded
  obtain ⟨p, hp⟩ := List.mem_iff_getElem?.1 hmem
  change (fill e.holdings contents)[p]? = some hold at hp
  rw [fill_get] at hp
  obtain ⟨old, hold', rfl⟩ := Option.map_eq_some_iff.1 hp
  have hids := contents_ids hb.distinctPlaces hcontents hold'
  dsimp only
  rw [hb.empty old (List.mem_of_getElem? hold'), List.nil_append, hids]
  rfl

/-- A step of a restored net has what the last record of it says. -/
theorem Loads.last (h : e.Loads s e') (hbuild : build fitter plan = .ok e) {slot : Slot}
    (hs : slot ∈ e'.slots) :
    (lastOf? s.transitions slot.step = none ∧ slot.transition.taken = [] ∧
      slot.transition.generations = [] ∧ ∀ nest t child, slot.transition ≠ .busy nest t child) ∨
    ∃ r old tokens, lastOf? s.transitions slot.step = some r ∧
      Transition.Takes r.step tokens old r.state slot.transition := by
  have hb := built_of_build hbuild
  obtain ⟨tokens, contents, -, -, -, hok, rfl⟩ := h.loaded
  obtain ⟨mid, hmid, rfl⟩ := List.mem_map.1 hs
  obtain ⟨i, hi⟩ := List.mem_iff_getElem?.1 hmid
  have hlt := (List.getElem?_eq_some_iff.1 hi).1
  rw [(Slot.restoreAll_spec e.plan.id tokens e.slots s.transitions).1] at hlt
  have hold := List.getElem?_eq_getElem hlt
  obtain ⟨tr, htr, hcases⟩ := Slot.restoreAll_last (Built.distinctSteps hbuild) hok hold
  obtain rfl := Option.some.inj (htr.symm.trans hi)
  rcases hcases with ⟨hnone, rfl⟩ | ⟨r, hr, htakes⟩
  · obtain ⟨-, houtline, htokens⟩ := hb.fresh (List.getElem_mem hlt)
    have hvacant := hb.vacant (List.getElem_mem hlt)
    obtain ⟨htaken, hgenerations⟩ := Transition.lists_nothing houtline htokens
    exact .inl ⟨hnone, htaken, hgenerations, hvacant⟩
  · exact .inr ⟨r, _, tokens, hr, htakes⟩

section

variable (hbuild : build fitter plan = .ok e) (h : e.Loads s e')

include hbuild h

/-- Whatever a snapshot that is accepted lists is listed for a place or a step. -/
theorem Loads.named : (∀ r ∈ s.places, ∃ hold ∈ e'.holdings, hold.place.id = r.place) ∧
    ∀ r ∈ s.transitions, ∃ slot ∈ e'.slots, slot.step = r.step := by
  have hfed := h.fed (built_of_build hbuild)
  have hslots : e'.slots.map (·.step) = e.slots.map (·.step) := by
    have hsame := congrArg (fun e => e.slots.map (·.step)) hfed.outline
    simpa [outline, Slot.outline, Function.comp_def] using hsame
  have hplaces : e'.holdings.map (·.place) = e.holdings.map (·.place) := by
    have hsame := congrArg (fun e => e.holdings.map (·.place)) hfed.outline
    simpa [outline, Holding.new, Function.comp_def] using hsame
  obtain ⟨tokens, contents, -, -, hcontents, hok, -⟩ := h.loaded
  constructor
  · intro r hr
    obtain ⟨x, -, hindex, -⟩ := exists_left_of_forall₂ (Snapshot.contents_ok hcontents).flip hr
    obtain ⟨hlt, hplace, -⟩ := List.findIdx?_eq_some_iff_getElem.1 hindex
    have hmem : e.holdings[x.1].place ∈ e'.holdings.map (·.place) := by
      rw [hplaces]
      exact List.mem_map_of_mem (List.getElem_mem hlt)
    obtain ⟨hold, hhold, hsame⟩ := List.mem_map.1 hmem
    exact ⟨hold, hhold, by rw [hsame]; exact beq_iff_eq.1 hplace⟩
  · intro r hr
    obtain ⟨slot, hslot, hstep⟩ := Slot.restoreAll_named hok hr
    have hmem : slot.step ∈ e'.slots.map (·.step) := by
      rw [hslots]
      exact List.mem_map_of_mem hslot
    obtain ⟨other, hother, hsame⟩ := List.mem_map.1 hmem
    exact ⟨other, hother, hsame.trans hstep⟩

/-- What a step has is listed for it, and all that its last record lists is there. -/
theorem Loads.lists {slot : Slot} (hs : slot ∈ e'.slots) {r : StepRecord}
    (hlast : lastOf? s.transitions slot.step = some r) :
    slot.transition.taken.map (·.id) = taken r ∧ slot.transition.generations = r.generations := by
  rcases h.last hbuild hs with ⟨hnone, -⟩ | ⟨⟨step, state⟩, old, tokens, hsome, htakes⟩
  · cases hnone.symm.trans hlast
  · obtain rfl := Option.some.inj (hsome.symm.trans hlast)
    exact htakes.lists

/-- A step runs a nested plan if its last record says so, and for that token. -/
theorem Loads.runs_iff {slot : Slot} (hs : slot ∈ e'.slots) {id : TokenId} :
    (∃ nest t child, slot.transition = .busy nest t child ∧ t.id = id) ↔
      ∃ inner, lastOf? s.transitions slot.step = some ⟨slot.step, .nested id inner⟩ := by
  rcases h.last hbuild hs with ⟨hnone, -, -, hvacant⟩ | ⟨⟨step, state⟩, old, tokens, hsome, htakes⟩
  · constructor
    · rintro ⟨nest, t, child, hbusy, -⟩
      exact absurd hbusy (hvacant nest t child)
    · rintro ⟨inner, hsome⟩
      cases hnone.symm.trans hsome
  · obtain rfl : step = slot.step := (lastOf?_some hsome).2
    rw [hsome]
    dsimp only at htakes
    constructor
    · rintro ⟨nest, t, child, hbusy, rfl⟩
      rw [hbusy] at htakes
      cases htakes with
      | nested isNest resolved => exact ⟨_, by rw [(TokenTable.resolve_ok resolved).2]⟩
    · rintro ⟨inner, hstate⟩
      cases hstate
      generalize slot.transition = tr at htakes
      cases htakes with
      | nested isNest resolved => exact ⟨_, _, _, rfl, (TokenTable.resolve_ok resolved).2⟩

/-- If the last record of each step lists all, a step takes the tokens of all its records. -/
theorem Loads.taken_perm (hall : s.Undivided) {slot : Slot} (hs : slot ∈ e'.slots) :
    (slot.transition.taken.map (·.id)).Perm (s.listedBy slot.step) := by
  rcases h.last hbuild hs with ⟨hnone, hempty, -⟩ | ⟨r, -, -, hlast, -⟩
  · rw [hempty, Snapshot.listedBy, Snapshot.recordsOf_eq_nil hnone]
    exact .nil
  · obtain ⟨hmem, hstep⟩ := lastOf?_some hlast
    -- No token is listed twice, so it is enough that both list the same ones.
    have hnodup : (s.transitions.flatMap taken).Nodup := (List.nodup_append.1 h.claimed).2.1
    rw [(h.lists hbuild hs hlast).1]
    refine (List.perm_ext_iff_of_nodup ((List.nodup_flatMap.1 hnodup).1 r hmem)
      (hnodup.sublist (List.Sublist.flatMap List.filter_sublist taken))).2 fun id => ?_
    change _ ↔ id ∈ (s.recordsOf slot.step).flatMap taken
    rw [List.mem_flatMap]
    constructor
    · exact fun hid => ⟨r, mem_recordsOf.2 ⟨hmem, hstep⟩, hid⟩
    · rintro ⟨r', hr', hid⟩
      obtain ⟨hmem', hstep'⟩ := mem_recordsOf.1 hr'
      exact (hall r' hmem' r (hstep' ▸ hlast)).1 hid

/-- If the last record of each step lists all, a join has the generations of all its
records. -/
theorem Loads.generations_iff (hall : s.Undivided) {slot : Slot} (hs : slot ∈ e'.slots)
    (g : GenerationRecord) : g ∈ slot.transition.generations ↔
      ∃ r ∈ s.recordsOf slot.step, g ∈ r.generations := by
  rcases h.last hbuild hs with ⟨hnone, -, hempty, -⟩ | ⟨r, -, -, hlast, -⟩
  · rw [hempty, Snapshot.recordsOf_eq_nil hnone]
    exact ⟨fun hg => (List.not_mem_nil hg).elim, fun ⟨r, hr, _⟩ => (List.not_mem_nil hr).elim⟩
  · obtain ⟨hmem, hstep⟩ := lastOf?_some hlast
    rw [(h.lists hbuild hs hlast).2]
    constructor
    · exact fun hg => ⟨r, mem_recordsOf.2 ⟨hmem, hstep⟩, hg⟩
    · rintro ⟨r', hr', hg⟩
      obtain ⟨hmem', hstep'⟩ := mem_recordsOf.1 hr'
      exact (hall r' hmem' r (hstep' ▸ hlast)).2 hg

/-- If the last record of each step lists all, a step runs a nested plan if any record
says so. -/
theorem Loads.nests_iff (hall : s.Undivided) {slot : Slot} (hs : slot ∈ e'.slots) {id : TokenId} :
    (∃ nest t child, slot.transition = .busy nest t child ∧ t.id = id) ↔
      ∃ inner, ⟨slot.step, .nested id inner⟩ ∈ s.transitions := by
  rw [h.runs_iff hbuild hs]
  constructor
  · exact fun ⟨inner, hlast⟩ => ⟨inner, (lastOf?_some hlast).1⟩
  · rintro ⟨inner, hmem⟩
    obtain ⟨last, hlast⟩ := lastOf?_isSome hmem
    have hid : id ∈ taken last := (hall _ hmem _ hlast).1 (List.mem_singleton_self id)
    -- The last record lists the same token, so it is this very record.
    obtain rfl := eq_of_taken h.claimed hmem (lastOf?_some hlast).1 (List.mem_singleton_self id) hid
    exact ⟨inner, hlast⟩

/-- What a net holds that has taken each listed token where it is listed, it holds once. -/
theorem Loads.exclusive (hfits : e'.Fits fitter)
    (places : ∀ hold ∈ e'.holdings, (hold.tokens.map (·.id)).Perm (s.listedAt hold.place.id))
    (steps : ∀ slot ∈ e'.slots, (slot.transition.taken.map (·.id)).Perm (s.listedBy slot.step)) :
    e'.Exclusive := by
  have hdistinct : (e'.holdings.map (·.place.id)).Nodup := by
    have hplan := (Plan.sound_of_flaws (built_of_build hfits.1).sound).distinctPlaces
    rw [← hfits.places, List.map_map] at hplan
    exact hplan
  have hplaced : (e'.holdings.flatMap fun hold => hold.tokens.map (·.id)).Perm
      (s.places.flatMap (·.tokens)) := by
    refine (List.Perm.flatMap_left _ places).trans ?_
    rw [← List.flatMap_map (fun hold : Holding => hold.place.id) s.listedAt]
    refine perm_flatMap_filter PlaceRecord.place (·.tokens) hdistinct ?_
    intro r hr
    obtain ⟨hold, hhold, hplace⟩ := (h.named hbuild).1 r hr
    exact hplace ▸ List.mem_map_of_mem hhold
  have htaken : (e'.slots.flatMap fun slot => slot.transition.taken.map (·.id)).Perm
      (s.transitions.flatMap taken) := by
    refine (List.Perm.flatMap_left _ steps).trans ?_
    rw [← List.flatMap_map Slot.step s.listedBy]
    refine perm_flatMap_filter StepRecord.step taken hfits.distinctSteps ?_
    intro r hr
    obtain ⟨slot, hslot, hstep⟩ := (h.named hbuild).2 r hr
    exact hstep ▸ List.mem_map_of_mem hslot
  unfold Exclusive
  rw [work_eq, Multiset.map_coe, Multiset.coe_nodup, List.map_append, List.map_flatMap,
    List.map_flatMap]
  exact (hplaced.append htaken).nodup_iff.2 h.claimed

/-- A net in which each step has all that its records list holds what is listed. -/
theorem Loads.holds (hf : fitter.Regular) (accepted : e.restore s = (e', .ok ()))
    (hall : s.Undivided) : e'.Holds s := by
  have hb := built_of_build hbuild
  have hstocked := restore_stocked hf hbuild s
  rw [accepted] at hstocked
  have hplaces : ∀ hold ∈ e'.holdings,
      (hold.tokens.map (·.id)).Perm (s.listedAt hold.place.id) := fun hold hmem => by
    rw [h.listedAt hb hmem]
  have hsteps : ∀ slot ∈ e'.slots,
      (slot.transition.taken.map (·.id)).Perm (s.listedBy slot.step) := fun _ hs =>
    h.taken_perm hbuild hall hs
  exact {
    places := hplaces
    steps := hsteps
    joins := fun _ hs g => h.generations_iff hbuild hall hs g
    nests := fun _ hs _ => h.nests_iff hbuild hall hs
    named := h.named hbuild
    tokens := ⟨hstocked.places, hstocked.steps⟩
    once := h.exclusive hbuild hstocked.fits hplaces hsteps }

/-- A net that holds what is listed has all that the records of a step list. -/
theorem Loads.undivided (hholds : e'.Holds s) : s.Undivided := by
  intro r hr last hlast
  obtain ⟨slot, hs, hstep⟩ := (h.named hbuild).2 r hr
  rw [← hstep] at hlast
  obtain ⟨htaken, hgenerations⟩ := h.lists hbuild hs hlast
  constructor
  · intro id hid
    rw [← htaken, (hholds.steps slot hs).mem_iff]
    exact List.mem_flatMap.2 ⟨r, mem_recordsOf.2 ⟨hr, hstep.symm⟩, hid⟩
  · intro g hg
    rw [← hgenerations, hholds.joins slot hs g]
    exact ⟨r, mem_recordsOf.2 ⟨hr, hstep.symm⟩, hg⟩

end

/-- The net that a step runs is what has become of the snapshot that is listed for the
step. -/
theorem Loads.child (hf : fitter.Regular) (hbuild : build fitter plan = .ok e)
    (h : e.Loads s e') {slot : Slot} (hs : slot ∈ e'.slots) {nest : Nest} {t : Token}
    {child : Engine} (hbusy : slot.transition = .busy nest t child) {inner : Snapshot}
    (hmem : ⟨slot.step, .nested t.id inner⟩ ∈ s.transitions) :
    ∃ fresh, build fitter nest.plan = .ok fresh ∧ fresh.restore inner = (child, .ok ()) := by
  obtain ⟨fresh, inner', hmem', hbuilt, hrestored⟩ :=
    (h.fed (built_of_build hbuild)).child hf hbuild hs hbusy
  have hsame := eq_of_taken h.claimed hmem hmem' (List.mem_singleton_self t.id)
    (List.mem_singleton_self t.id)
  cases hsame
  exact ⟨fresh, hbuilt, hrestored⟩

/-- If no records of a step divide what is listed for it, a restored net holds what its
snapshot lists, at every depth. -/
theorem mirrors_of_undivided (hf : fitter.Regular) (h : s.Throughout Snapshot.Undivided)
    (hbuild : build fitter plan = .ok e) (accepted : e.restore s = (e', .ok ())) :
    e'.Mirrors s := by
  induction h generalizing plan e e' with
  | @intro s here inside ih =>
    have hloads := loads_of_restore accepted
    refine .intro (hloads.holds hbuild hf accepted here) ?_
    intro slot hs nest t child inner hbusy hmem
    obtain ⟨fresh, hbuilt, hrestored⟩ := hloads.child hf hbuild hs hbusy hmem
    exact ih slot.step t.id inner hmem hbuilt hrestored

theorem undivided_of_mirrors (hf : fitter.Regular) (h : e'.Mirrors s)
    (hbuild : build fitter plan = .ok e) (accepted : e.restore s = (e', .ok ())) :
    s.Throughout Snapshot.Undivided := by
  induction h generalizing plan e with
  | @intro e' s hholds inside ih =>
    have hloads := loads_of_restore accepted
    refine .intro (hloads.undivided hbuild hholds) fun step id inner hmem => ?_
    obtain ⟨slot, hs, rfl⟩ := hholds.named.2 _ hmem
    obtain ⟨nest, t, child, hbusy, rfl⟩ := (hholds.nests slot hs id).2 ⟨inner, hmem⟩
    obtain ⟨fresh, hbuilt, hrestored⟩ := hloads.child hf hbuild hs hbusy hmem
    exact ih slot hs nest t child inner hbusy hmem hbuilt hrestored

/-- What a net is paused with has at most one record of each step. -/
theorem captured_undivided {now : Timestamp} (h : e.Throughout (Fits fitter)) (hp : e.Pausable) :
    (e.captured now).Throughout Snapshot.Undivided := by
  refine captured_throughout h hp fun e he => Snapshot.undivided_of_nodup ?_
  refine List.pairwise_map.2 (List.pairwise_filterMap.2 ?_)
  refine (List.pairwise_map.1 he.distinctSteps).imp fun {a b} hne r hr r' hr' => ?_
  obtain ⟨_, -, rfl⟩ := Option.map_eq_some_iff.1 hr
  obtain ⟨_, -, rfl⟩ := Option.map_eq_some_iff.1 hr'
  exact hne

/-- Whatever a net that runs is paused with, a new net takes it in faithfully if at all. -/
theorem captured_mirrored {w : World} {now : Timestamp} (hf : fitter.Regular)
    (h : Reachable w fitter plan e) (captured : (e.pause now).2 = .ok s) {fresh : Engine}
    (hbuild : build fitter plan = .ok fresh) (accepted : fresh.restore s = (e', .ok ())) :
    e'.Mirrors s := by
  have hpausable := pausable_of_pause captured
  obtain rfl : e.captured now = s := by
    rw [pause_eq hpausable] at captured
    exact Except.ok.inj captured
  exact mirrors_of_undivided hf (captured_undivided (h.steady hf).fits hpausable) hbuild accepted

/-- A restored net holds what its snapshot lists, at every depth, exactly if all that is
listed for a step is in the last record of the step. -/
theorem restored_faithful_iff (hbuild : build .standard plan = .ok e)
    (accepted : e.restore s = (e', .ok ())) :
    e'.Mirrors s ↔ s.Throughout Snapshot.Undivided :=
  ⟨fun h => undivided_of_mirrors Fitter.standard_regular h hbuild accepted,
    fun h => mirrors_of_undivided Fitter.standard_regular h hbuild accepted⟩

/-- A kitchen that cooks a dish, with two records of the orders that wait. -/
def queued : Snapshot where
  planId := "kitchen"
  version := 1
  fingerprint := kitchen.fingerprint
  capturedAt := default
  tokens := [⟨⟨1⟩, none, none⟩, ⟨⟨2⟩, some (.str "bread"), none⟩, ⟨⟨3⟩, none, none⟩]
  places := [⟨"order", [⟨1⟩]⟩, ⟨"order", [⟨2⟩]⟩]
  transitions := [⟨"cook", .task [⟨3⟩]⟩]

theorem queued_mirrored : ∃ e e', build .standard kitchen = .ok e ∧
    e.restore queued = (e', .ok ()) ∧ e'.Mirrors queued := by
  have haccepted : ((build .standard kitchen).toOption.map fun e =>
      (e.restore queued).2.toOption) = some (some ()) := by
    decide +kernel
  obtain ⟨e, hbuild, haccepted⟩ := Option.map_eq_some_iff.1 haccepted
  have hbuilt := toOption_eq_some.1 hbuild
  have hrestored : e.restore queued = ((e.restore queued).1, .ok ()) :=
    Prod.ext rfl (toOption_eq_some.1 haccepted)
  refine ⟨e, _, hbuilt, hrestored, (restored_faithful_iff hbuilt hrestored).2 ?_⟩
  refine .intro (Snapshot.undivided_of_nodup (List.nodup_singleton _)) fun step id inner hmem => ?_
  cases List.mem_singleton.1 hmem

/-- Two dishes that are cooked, in a record each. -/
def divided : Snapshot where
  planId := "kitchen"
  version := 1
  fingerprint := kitchen.fingerprint
  capturedAt := default
  tokens := [⟨⟨1⟩, none, none⟩, ⟨⟨2⟩, none, none⟩]
  places := []
  transitions := [⟨"cook", .task [⟨1⟩]⟩, ⟨"cook", .task [⟨2⟩]⟩]

/-- The kitchen takes in the snapshot, and forgets the first dish. -/
theorem divided_forgotten : ∃ e e', build .standard kitchen = .ok e ∧
    e.restore divided = (e', .ok ()) ∧ e'.work.map (·.id) = {⟨2⟩} ∧ ¬ e'.Mirrors divided := by
  have hfacts : ((build .standard kitchen).toOption.map fun e =>
      ((e.restore divided).2.toOption, (e.restore divided).1.slots.map (·.transition.taken.map (·.id)),
        (e.restore divided).1.holdings.map (·.tokens.map (·.id)))) =
      some (some (), [[⟨2⟩]], [[], []]) := by
    decide +kernel
  obtain ⟨e, hbuild, hfacts⟩ := Option.map_eq_some_iff.1 hfacts
  simp only [Prod.mk.injEq] at hfacts
  obtain ⟨haccepted, htaken, hplaced⟩ := hfacts
  have hwork : (e.restore divided).1.work.map (·.id) = {⟨2⟩} := by
    rw [work_eq, Multiset.map_coe, List.map_append, List.map_flatMap, List.map_flatMap,
      List.flatMap_def, List.flatMap_def, hplaced, htaken]
    rfl
  refine ⟨e, _, toOption_eq_some.1 hbuild, Prod.ext rfl (toOption_eq_some.1 haccepted), hwork, ?_⟩
  rintro ⟨hholds, -⟩
  obtain ⟨slot, hs, hstep⟩ := hholds.named.2 ⟨"cook", .task [⟨1⟩]⟩ List.mem_cons_self
  have hperm := hholds.steps slot hs
  have htwo : slot.transition.taken.map (·.id) = [⟨2⟩] :=
    List.mem_singleton.1 (htaken ▸ List.mem_map_of_mem hs)
  rw [hstep, htwo] at hperm
  exact absurd hperm.length_eq (by decide)

end Engine
end RecipeNet
