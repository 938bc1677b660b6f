import RecipeNet.Proofs.Addressing
import RecipeNet.Proofs.Asks
import RecipeNet.Proofs.Gathering
import RecipeNet.Proofs.Net.Fan
import RecipeNet.Proofs.Net.Tally

/-!
Parting the work and bringing it together again. The start of a net with a fan calls for all
its tasks; as they finish, in whatever order, their tokens wait before the join, and the last
one makes the start token whole again, which ends the run.
-/

namespace RecipeNet

def Branch.begun (branch : Branch) (t : Token) : List Event :=
  [.fired (.ofStep branch.task), .started (.ofStep branch.task) branch.activity t]

/-- The tasks of a fan with the siblings of a token that some identities make. -/
def Fan.crew (fan : Fan) (t : Token) (ids : List TokenId) : List (Branch × Token) :=
  fan.branches.zip (ids.map fun id => ⟨id, none, some t⟩)

def Transition.filled (held : List Token) (pending : List Generation) : Transition → Transition
  | .task activity _ => .task activity held
  | .join inputs _ => .join inputs pending
  | other => other

def shareOf (held : List (Nat × Token)) (i : Nat) : List Token :=
  (held.filter (·.1 == i)).map (·.2)

namespace Transition

theorem filled_ofFitting (own : Fitter) (fitting : Fitting) :
    (ofFitting own fitting).filled [] [] = ofFitting own fitting := by
  cases fitting <;> rfl

variable {drive : Drive} {fuel k : Nat} {r r' : Reaction} {t : Token} {s : Supply}

theorem arrive_task (holds : r.holds k t = true) (fire : r.fire [(k, t)] [] = (r', .ok true))
    (activity : String) (held : List Token) :
    (Transition.task activity held).arrive drive fuel r k t s =
      some ⟨announce r' activity t, .task activity (held ++ [t]), s, .ok ()⟩ := by
  simp only [arrive, holds, if_true, fire]

theorem arrive_split (holds : r.holds k t = true)
    (fire : r.fire [(k, t)] (t.siblings (s.take r.outputs.length).1) = (r', .ok true)) :
    Transition.split.arrive drive fuel r k t s =
      some ⟨r', .split, (s.take r.outputs.length).2, .ok ()⟩ := by
  unfold Token.siblings at fire
  simp only [arrive, holds, if_true, fire, discard]

theorem arrive_join {pending pending' : List Generation} {result : Except Fault Unit}
    (answer : Join.arrive pending r k t = (r', pending', result)) (inputs : Nat) :
    (Transition.join inputs pending).arrive drive fuel r k t s =
      some ⟨r', .join inputs pending', s, result⟩ := by
  simp only [arrive, answer]

end Transition

def Slot.facing (slot : Slot) (holdings : List Holding) : Reaction where
  step := slot.step
  inputs := slot.inputs
  outputs := slot.outputs
  holdings := holdings

theorem shareOf_cons_self (i : Nat) (t : Token) (held : List (Nat × Token)) :
    shareOf ((i, t) :: held) i = t :: shareOf held i := by
  simp [shareOf]

theorem shareOf_cons_ne {i j : Nat} (h : i ≠ j) (t : Token) (held : List (Nat × Token)) :
    shareOf ((i, t) :: held) j = shareOf held j := by
  simp [shareOf, h]

theorem shareOf_eq_nil {held : List (Nat × Token)} {i : Nat} (h : ∀ x ∈ held, x.1 ≠ i) :
    shareOf held i = [] := by
  rw [shareOf, List.filter_eq_nil_iff.2 fun x hx => by simpa using h x hx, List.map_nil]

/-- It does not matter in which order steps are given what they hold. -/
theorem shareOf_perm {held held' : List (Nat × Token)} (h : held.Perm held')
    (apart : (held.map (·.1)).Nodup) (i : Nat) : shareOf held i = shareOf held' i := by
  induction h with
  | nil => rfl
  | cons x _ ih =>
    have hrest := ih (List.nodup_cons.1 apart).2
    obtain ⟨j, t⟩ := x
    by_cases hj : j = i
    · rw [hj, shareOf_cons_self, shareOf_cons_self, hrest]
    · rw [shareOf_cons_ne hj, shareOf_cons_ne hj, hrest]
  | swap x y held =>
    obtain ⟨j, t⟩ := x
    obtain ⟨k, u⟩ := y
    by_cases hj : j = i
    · have hk : k ≠ i := fun hk => (List.nodup_cons.1 apart).1 (by simp [hj, hk])
      rw [hj, shareOf_cons_ne hk, shareOf_cons_self, shareOf_cons_self, shareOf_cons_ne hk]
    · by_cases hk : k = i
      · rw [hk, shareOf_cons_self, shareOf_cons_ne hj, shareOf_cons_ne hj, shareOf_cons_self]
      · rw [shareOf_cons_ne hk, shareOf_cons_ne hj, shareOf_cons_ne hj, shareOf_cons_ne hk]
  | trans h₁ _ ih₁ ih₂ => exact (ih₁ apart).trans (ih₂ ((h₁.map _).nodup_iff.1 apart))

namespace Engine

/-- A net at work, with tokens in its places and with its tasks, and siblings noted by its
join. -/
def during (base : Engine) (hs : List Holding) (held : List (Nat × Token))
    (pending : List Generation) : Engine :=
  { base with
    status := .running
    holdings := hs
    slots := base.slots.mapIdx fun i slot =>
      { slot with phase := .active, transition := slot.transition.filled (shareOf held i) pending } }

section

variable {base : Engine} {hs hs' : List Holding} {held held' : List (Nat × Token)}
  {pending pending' : List Generation} {i p : Nat} {slot : Slot} {tr : Transition}

theorem during_slot (hi : base.slots[i]? = some slot) : (base.during hs held pending).slots[i]? =
    some { slot with
      phase := .active, transition := slot.transition.filled (shareOf held i) pending } := by
  simp [during, hi]

theorem during_congr (h : ∀ i, shareOf held i = shareOf held' i) :
    base.during hs held pending = base.during hs held' pending := by
  rw [during, during, funext h]

theorem during_become (hi : base.slots[i]? = some slot)
    (same : tr = slot.transition.filled (shareOf held' i) pending')
    (others : ∀ j other, base.slots[j]? = some other → j ≠ i →
      other.transition.filled (shareOf held j) pending =
        other.transition.filled (shareOf held' j) pending') :
    (base.during hs held pending).become i hs' tr = base.during hs' held' pending' := by
  have hslots : ((base.during hs held pending).become i hs' tr).slots =
      (base.during hs' held' pending').slots := by
    refine List.ext_getElem? fun j => ?_
    by_cases hj : i = j
    · subst hj
      rw [become_slot hs' tr (during_slot hi), during_slot hi, same]
    · rw [become_slot_ne hs' tr hj]
      cases hother : base.slots[j]? with
      | none => simp [during, hother]
      | some other => rw [during_slot hother, during_slot hother, others j other hother (Ne.symm hj)]
  exact congrArg (fun slots : List Slot => ({ base with
    status := .running, holdings := hs', slots } : Engine)) hslots

/-- What work leaves alone in the steps. -/
theorem during_map {β : Type} (f : Slot → β)
    (blind : ∀ slot phase tr, f { slot with phase, transition := tr } = f slot) :
    (base.during hs held pending).slots.map f = base.slots.map f := by
  refine List.ext_getElem? fun i => ?_
  rw [List.getElem?_map, List.getElem?_map]
  cases hi : base.slots[i]? with
  | none => simp [during, hi]
  | some slot => rw [during_slot hi, Option.map_some, Option.map_some, blind]

theorem during_consumers (p : Nat) : (base.during hs held pending).consumers p = base.consumers p :=
  consumers_congr (during_map Slot.inputs fun _ _ _ => rfl) p

theorem during_notices (p : Nat) (t : Token) :
    (base.during hs held pending).notices p t = base.notices p t := by
  rw [notices, during_consumers, notices]

theorem acceptAll_ordinary {e : Engine} {made : List (Nat × Token)} (running : e.status = .running)
    (ordinary : ∀ x ∈ made, ∀ hold, e.holdings[x.1]? = some hold → hold.isTerminal = false) :
    e.acceptAll made = (e, made.flatMap fun x => e.notices x.1 x.2, []) := by
  obtain ⟨hnotices, ⟨x, hx, hold, hat, hterminal, -⟩ | ⟨hsame, hsilent, -⟩⟩ :=
    acceptAll_running running made
  · rw [ordinary x hx hold hat] at hterminal
    cases hterminal
  · exact Prod.ext hsame (Prod.ext hnotices hsilent)

theorem acceptAll_terminal {e : Engine} {t : Token} {hold : Holding} (running : e.status = .running)
    (hp : e.holdings[p]? = some hold) (terminal : hold.isTerminal = true) :
    ∃ notices, e.acceptAll [(p, t)] =
      ({ e with status := .completed, completion := some (hold.place.id, t) }, notices,
        [.completed hold.place.id t]) := by
  rcases (acceptAll_running running [(p, t)]).2 with
    ⟨x, hx, other, hother, -, hended, hreport⟩ | ⟨-, -, hordinary⟩
  · obtain rfl := List.mem_singleton.1 hx
    obtain rfl := Option.some.inj (hother.symm.trans hp)
    exact ⟨_, Prod.ext hended (Prod.ext rfl hreport)⟩
  · rw [hordinary _ (List.mem_singleton_self _) hold hp] at terminal
    cases terminal

/-- A net that does not run drops its notices. -/
theorem drive_ended {e : Engine} (ended : e.status ≠ .running) (fuel : Nat) (queue : List Notice)
    (s : Supply) : drive (fuel + 1) e queue s = some ⟨e, s, [], .ok ()⟩ := by
  cases queue with
  | nil => rfl
  | cons n queue => simp only [drive, ne_eq, ended, not_false_eq_true, if_true]

theorem visited_ok {e e' : Engine} {r : Reaction} {notices : List Notice} {events : List Event}
    (accepts : (e.become i r.holdings tr).acceptAll r.produced = (e', notices, events)) (s : Supply) :
    e.visited i ⟨r, tr, s, .ok ()⟩ = ⟨e', notices, s, r.events ++ events, .ok ()⟩ := by
  have hvisit : e.visited i ⟨r, tr, s, .ok ()⟩ =
      ⟨((e.become i r.holdings tr).acceptAll r.produced).1,
        ((e.become i r.holdings tr).acceptAll r.produced).2.1, s,
        r.events ++ ((e.become i r.holdings tr).acceptAll r.produced).2.2, .ok ()⟩ := rfl
  rw [hvisit, accepts]

/-- A net at work attends to a notice. -/
theorem during_attend {fuel k : Nat} {t : Token} {s : Supply} {reacted : Reacted} {queue : List Notice}
    (hi : base.slots[i]? = some slot)
    (arrive : (slot.transition.filled (shareOf held i) pending).arrive (drive fuel) fuel
      (slot.facing hs) k t s = some reacted) :
    drive (fuel + 1) (base.during hs held pending) (⟨i, k, t⟩ :: queue) s =
      ((base.during hs held pending).visited i reacted).andThen (drive fuel) queue := by
  have hstep := drive_step fuel (e := base.during hs held pending) (n := ⟨i, k, t⟩) rfl
    (during_slot hi) rfl queue s
  exact hstep.trans (congrArg (Option.bind · _) arrive)

/-- What follows a visit that leaves a net at work. -/
theorem during_visited {s : Supply} {r : Reaction} {queue : List Notice} {drive : Drive}
    (becomes : (base.during hs held pending).become i r.holdings tr =
      base.during r.holdings held' pending')
    (ordinary : ∀ x ∈ r.produced, ∀ hold, r.holdings[x.1]? = some hold → hold.isTerminal = false) :
    ((base.during hs held pending).visited i ⟨r, tr, s, .ok ()⟩).andThen drive queue =
      (drive (base.during r.holdings held' pending')
        (queue ++ r.produced.flatMap fun x => base.notices x.1 x.2) s).map (·.after r.events) := by
  have haccept := acceptAll_ordinary (e := base.during r.holdings held' pending') rfl ordinary
  rw [← becomes] at haccept
  rw [visited_ok haccept, becomes, List.append_nil]
  simp only [Visit.andThen, during_notices]

end

def summons (base : Engine) (crew : List (Branch × Token)) : List Notice :=
  crew.map fun x => ⟨base.stepAt x.1.task, 0, x.2⟩

/-- The tasks of a crew with their tokens: by the places before them, by the steps, and by
the places after them. -/
def todos (base : Engine) (crew : List (Branch × Token)) : List (Nat × Token) :=
  crew.map fun x => (base.placeAt x.1.todo, x.2)

@[inherit_doc todos]
def tasks (base : Engine) (crew : List (Branch × Token)) : List (Nat × Token) :=
  crew.map fun x => (base.stepAt x.1.task, x.2)

@[inherit_doc todos]
def dones (base : Engine) (crew : List (Branch × Token)) : List (Nat × Token) :=
  crew.map fun x => (base.placeAt x.1.done, x.2)

end Engine

/-- A step that takes the one token behind its only input. -/
theorem Reaction.fire_only {r : Reaction} {p : Nat} {t : Token} {made : List (Nat × Token)}
    {rest : Multiset (Nat × Token)} (reads : r.inputs = [p])
    (range : ∀ q ∈ r.outputs, q < r.holdings.length)
    (lies : spread Holding.tokens r.holdings = (p, t) ::ₘ rest) (alone : ∀ y ∈ rest, y.1 ≠ p)
    (targets : ∀ e ∈ made, ∃ place, r.outputs[e.1]? = some place) :
    r.holds 0 t = true ∧ ∃ r' placed, r.fire [(0, t)] made = (r', .ok true) ∧ r'.Follows r ∧
      r'.events = r.events ++ [.fired (.ofStep r.step)] ∧ r'.produced = r.produced ++ placed ∧
      List.Forall₂ (fun e u => r.outputs[e.1]? = some u.1 ∧ u.2 = e.2) made placed ∧
      spread Holding.tokens r'.holdings = rest + (placed : Multiset _) := by
  have hmem : (p, t) ∈ spread Holding.tokens r.holdings := by
    rw [lies]
    exact Multiset.mem_cons_self _ _
  obtain ⟨hold, hat, ht⟩ := mem_spread.1 hmem
  have hheld : r.holds 0 t = true :=
    Reaction.holds_iff.2 ⟨p, hold, by rw [reads]; rfl, hat, Holding.holds_iff.2 ⟨t, ht, rfl⟩⟩
  obtain ⟨r', hfire⟩ := Reaction.fire_single hheld targets
  obtain ⟨-, hfollows, hevents, removed, placed, hremoved, hplaced, hproduced, kept, hbefore, hafter⟩ :=
    Reaction.fire_taken hfire range
  refine ⟨hheld, r', placed, hfire, hfollows, hevents, hproduced, hplaced, ?_⟩
  obtain ⟨u, hu, rfl⟩ : ∃ u, u.1 = p ∧ removed = [u] := by
    cases hremoved with
    | cons hfirst hnone =>
      cases hnone
      rw [reads] at hfirst
      exact ⟨_, (Option.some.inj hfirst.1).symm, rfl⟩
  obtain rfl : u = (p, t) := by
    have hthere : u ∈ (p, t) ::ₘ rest := by
      rw [← lies, hbefore]
      exact Multiset.mem_add.2 (.inr (List.mem_singleton_self u))
    exact (Multiset.mem_cons.1 hthere).resolve_right fun hrest => alone u hrest hu
  have hkept : kept = rest := by
    rw [lies, ← Multiset.singleton_add, add_comm] at hbefore
    exact (add_right_cancel hbefore).symm
  rw [hafter, hkept]

namespace Engine

variable {base : Engine} {fan : Fan} {hs : List Holding} {held : List (Nat × Token)}
  {pending : List Generation} {x : Branch × Token} {crew : List (Branch × Token)} {i j p : Nat}
  {slot : Slot} {t : Token} {s : Supply} {fuel : Nat} {queue : List Notice}

namespace Fanned

theorem becomes_split (h : base.Fanned fan) (hs' : List Holding) :
    (base.during hs held pending).become (base.stepAt fan.split) hs' .split =
      base.during hs' held pending :=
  during_become h.split rfl fun _ _ _ _ => rfl

theorem becomes_task (h : base.Fanned fan) (hx : x.1 ∈ fan.branches) (hs' : List Holding)
    {held' : List (Nat × Token)}
    (others : ∀ j, j ≠ base.stepAt x.1.task → shareOf held j = shareOf held' j) :
    (base.during hs held pending).become (base.stepAt x.1.task) hs'
      (.task x.1.activity (shareOf held' (base.stepAt x.1.task))) = base.during hs' held' pending :=
  during_become (h.task hx) rfl fun j _ _ hne => by rw [others j hne]

theorem becomes_join (h : base.Fanned fan) (hs' : List Holding) (pending' : List Generation) :
    (base.during hs held pending).become (base.stepAt fan.join) hs'
      (.join fan.reads.length pending') = base.during hs' held pending' := by
  refine during_become h.join rfl fun j other hj hne => ?_
  rcases h.steps hj with rfl | rfl | ⟨branch, hbranch, rfl⟩
  · cases hj.symm.trans h.split
    rfl
  · exact absurd rfl hne
  · cases hj.symm.trans (h.task hbranch)
    rfl

theorem range (h : base.Fanned fan) (places : hs.map (·.place) = base.holdings.map (·.place))
    {id : String} (hid : id ∈ fan.places) : base.placeAt id < hs.length := by
  obtain ⟨place, hplace, rfl⟩ := h.known hid
  have hlength := congrArg List.length places
  rw [List.length_map, List.length_map] at hlength
  rw [hlength]
  exact (List.getElem?_eq_some_iff.1 (h.built.lies hplace)).1

theorem ordinary (h : base.Fanned fan) (places : hs.map (·.place) = base.holdings.map (·.place))
    (hp : p ≠ base.placeAt fan.terminal) (hold : Holding) (hat : hs[p]? = some hold) :
    hold.isTerminal = false :=
  Bool.eq_false_iff.2 fun hterminal => hp ((h.ends_at places hat).1.1 hterminal)

/-- A task takes a token in and calls for its activity. -/
theorem begins (h : base.Fanned fan) (fuel : Nat) (held : List (Nat × Token))
    (pending : List Generation) (queue : List Notice) (s : Supply) (hx : x.1 ∈ fan.branches) (places : hs.map (·.place) = base.holdings.map (·.place))
    {rest : Multiset (Nat × Token)}
    (lies : spread Holding.tokens hs = (base.placeAt x.1.todo, x.2) ::ₘ rest)
    (alone : ∀ y ∈ rest, y.1 ≠ base.placeAt x.1.todo) :
    ∃ hs', hs'.map (·.place) = base.holdings.map (·.place) ∧ spread Holding.tokens hs' = rest ∧
      drive (fuel + 1) (base.during hs held pending)
          (⟨base.stepAt x.1.task, 0, x.2⟩ :: queue) s =
        (drive fuel (base.during hs' (held ++ [(base.stepAt x.1.task, x.2)]) pending) queue s).map
          (·.after (x.1.begun x.2)) := by
  obtain ⟨hheld, r, placed, hfire, hfollows, hevents, hproduced, hplaced, hlies⟩ :=
    Reaction.fire_only (r := (base.taskSlot x.1).facing hs) rfl
      (List.forall_mem_singleton.2 (h.range places (fan.mem_places.2.2 _ hx).2)) lies alone
      (List.forall_mem_nil _)
  cases hplaced
  have hshare : shareOf (held ++ [(base.stepAt x.1.task, x.2)]) (base.stepAt x.1.task) =
      shareOf held (base.stepAt x.1.task) ++ [x.2] := by
    simp [shareOf]
  have hbecomes : (base.during hs held pending).become (base.stepAt x.1.task) r.holdings
      (.task x.1.activity (shareOf (held ++ [(base.stepAt x.1.task, x.2)]) (base.stepAt x.1.task))) =
      base.during r.holdings (held ++ [(base.stepAt x.1.task, x.2)]) pending :=
    h.becomes_task hx r.holdings fun j hne => by simp [shareOf, Ne.symm hne]
  have harrive : ((base.taskSlot x.1).transition.filled (shareOf held (base.stepAt x.1.task))
      pending).arrive (drive fuel) fuel ((base.taskSlot x.1).facing hs) 0 x.2 s =
      some ⟨announce r x.1.activity x.2, .task x.1.activity
        (shareOf (held ++ [(base.stepAt x.1.task, x.2)]) (base.stepAt x.1.task)), s, .ok ()⟩ := by
    rw [hshare]
    exact Transition.arrive_task hheld hfire _ _
  have hnone : (announce r x.1.activity x.2).produced = [] := hproduced
  have htold : (announce r x.1.activity x.2).events = x.1.begun x.2 := by
    rw [announce, Reaction.raise, hevents, hfollows.step]
    rfl
  refine ⟨r.holdings, hfollows.places.trans places, by simpa using hlies, ?_⟩
  rw [during_attend (h.task hx) harrive,
    during_visited (r := announce r x.1.activity x.2) hbecomes
      (by rw [hnone]; exact List.forall_mem_nil _), hnone, htold, List.flatMap_nil, List.append_nil]
  rfl

/-- The tasks of a crew begin one after the other. -/
theorem begin_all (h : base.Fanned fan) (crew : List (Branch × Token)) (held : List (Nat × Token))
    (pending : List Generation) (s : Supply)
    (members : ∀ x ∈ crew, x.1 ∈ fan.branches) (apart : ((base.todos crew).map (·.1)).Nodup)
    (places : hs.map (·.place) = base.holdings.map (·.place))
    (lies : spread Holding.tokens hs = (base.todos crew : Multiset _)) (enough : crew.length < fuel) :
    ∃ hs', hs'.map (·.place) = base.holdings.map (·.place) ∧ spread Holding.tokens hs' = 0 ∧
      drive fuel (base.during hs held pending) (base.summons crew) s =
        some ⟨base.during hs' (held ++ base.tasks crew) pending, s,
          crew.flatMap fun x => x.1.begun x.2, .ok ()⟩ := by
  induction crew generalizing hs held fuel with
  | nil =>
    obtain ⟨fuel, rfl⟩ := Nat.exists_eq_succ_of_ne_zero (Nat.ne_zero_of_lt enough)
    exact ⟨hs, places, lies, by rw [tasks, List.map_nil, List.append_nil]; rfl⟩
  | cons x crew ih =>
    obtain ⟨fuel, rfl⟩ := Nat.exists_eq_succ_of_ne_zero (Nat.ne_zero_of_lt enough)
    obtain ⟨hx, hcrew⟩ := List.forall_mem_cons.1 members
    obtain ⟨hown, happart⟩ := List.nodup_cons.1 apart
    have hfirst : spread Holding.tokens hs =
        (base.placeAt x.1.todo, x.2) ::ₘ (base.todos crew : Multiset _) := lies
    obtain ⟨mid, hplaces, hlies, hdrive⟩ := h.begins fuel held pending (base.summons crew) s hx places
      hfirst fun y hy hsame => hown (List.mem_map.2 ⟨y, hy, hsame⟩)
    obtain ⟨last, hplaces', hlies', hlater⟩ := ih (held ++ [(base.stepAt x.1.task, x.2)])
      hcrew happart hplaces hlies (Nat.lt_of_succ_lt_succ enough)
    refine ⟨last, hplaces', hlies', hdrive.trans ?_⟩
    rw [hlater, List.append_assoc]
    rfl

/-- The siblings of a token go to the outputs in turn. -/
theorem placed_siblings {outs : List Nat} {ids : List TokenId} {placed : List (Nat × Token)}
    (h : List.Forall₂ (fun e u => outs[e.1]? = some u.1 ∧ u.2 = e.2) (t.siblings ids) placed) :
    placed = outs.zip (ids.map fun id => ⟨id, none, some t⟩) := by
  refine List.ext_getElem? fun k => ?_
  cases hk : placed[k]? with
  | some u =>
    obtain ⟨e, he, hout, htoken⟩ := forall₂_left_at h hk
    rw [Token.siblings, List.getElem?_map, List.getElem?_zipIdx] at he
    obtain ⟨y, hy, rfl⟩ := Option.map_eq_some_iff.1 he
    obtain ⟨id, hid, rfl⟩ := Option.map_eq_some_iff.1 hy
    rw [Nat.zero_add] at hout
    refine (List.getElem?_zip_eq_some.2 ⟨hout, ?_⟩).symm
    rw [List.getElem?_map, hid, htoken]
    rfl
  | none =>
    have hlength := h.length_eq
    rw [Token.siblings, List.length_map, List.length_zipIdx] at hlength
    rw [List.getElem?_eq_none_iff, ← hlength] at hk
    refine (List.getElem?_eq_none ?_).symm
    rw [List.length_zip, List.length_map]
    exact (Nat.min_le_right ..).trans hk

theorem todos_crew (ids : List TokenId) : base.todos (fan.crew t ids) =
    (fan.branches.map (base.placeAt ·.todo)).zip (ids.map fun id => ⟨id, none, some t⟩) := by
  rw [todos, Fan.crew, List.zip_map_left]
  rfl

theorem crew_members {ids : List TokenId} (hx : x ∈ fan.crew t ids) : x.1 ∈ fan.branches :=
  (List.of_mem_zip hx).1

theorem crew_branches {ids : List TokenId} (hids : ids.length = fan.branches.length) :
    (fan.crew t ids).map (·.1) = fan.branches :=
  List.map_fst_zip (by rw [List.length_map, hids])

theorem crew_ids {ids : List TokenId} (hids : ids.length = fan.branches.length) :
    (fan.crew t ids).map (·.2.id) = ids := by
  have htokens : (fan.crew t ids).map (·.2) = ids.map fun id => ⟨id, none, some t⟩ :=
    List.map_snd_zip (by rw [List.length_map, hids])
  have hids := congrArg (List.map Token.id) htokens
  rw [List.map_map, List.map_map] at hids
  exact hids.trans (List.map_id ids)

/-- The tokens before the tasks summon the crew. -/
theorem todos_notices (h : base.Fanned fan) (members : ∀ x ∈ crew, x.1 ∈ fan.branches) :
    (base.todos crew).flatMap (fun x => base.notices x.1 x.2) = base.summons crew := by
  induction crew with
  | nil => rfl
  | cons x crew ih =>
    obtain ⟨hx, hcrew⟩ := List.forall_mem_cons.1 members
    have hfirst : base.notices (base.placeAt x.1.todo) x.2 = [⟨base.stepAt x.1.task, 0, x.2⟩] := by
      rw [notices, h.consumers_todo hx]
      rfl
    change base.notices (base.placeAt x.1.todo) x.2 ++ (base.todos crew).flatMap _ = _
    rw [hfirst, ih hcrew]
    rfl

/-- The split gives each task of the crew its token. -/
theorem parts (h : base.Fanned fan) (fuel : Nat) (held : List (Nat × Token))
    (pending : List Generation) (s : Supply) (places : hs.map (·.place) = base.holdings.map (·.place))
    (lies : spread Holding.tokens hs = {(base.placeAt fan.start, t)}) :
    ∃ hs', hs'.map (·.place) = base.holdings.map (·.place) ∧
      spread Holding.tokens hs' =
        (base.todos (fan.crew t (s.take fan.branches.length).1) : Multiset _) ∧
      drive (fuel + 1) (base.during hs held pending) [⟨base.stepAt fan.split, 0, t⟩] s =
        (drive fuel (base.during hs' held pending)
          (base.summons (fan.crew t (s.take fan.branches.length).1))
          (s.take fan.branches.length).2).map (·.after [.fired (.ofStep fan.split)]) := by
  have houtputs : (base.splitSlot fan).outputs.length = fan.branches.length := List.length_map _
  have hrange : ∀ p ∈ (base.splitSlot fan).outputs, p < hs.length := by
    intro p hp
    obtain ⟨branch, hbranch, rfl⟩ := List.mem_map.1 hp
    exact h.range places (fan.mem_places.2.2 branch hbranch).1
  have htargets : ∀ e ∈ t.siblings (s.take fan.branches.length).1,
      ∃ place, (base.splitSlot fan).outputs[e.1]? = some place :=
    t.siblings_targets (by simp [Supply.take, houtputs])
  obtain ⟨hheld, r, placed, hfire, hfollows, hevents, hproduced, hplaced, hlies⟩ :=
    Reaction.fire_only (r := (base.splitSlot fan).facing hs) rfl hrange lies
      (fun _ hnone => absurd hnone (Multiset.notMem_zero _)) htargets
  obtain rfl : placed = base.todos (fan.crew t (s.take fan.branches.length).1) :=
    (placed_siblings hplaced).trans (todos_crew _).symm
  have hmade : r.produced = base.todos (fan.crew t (s.take fan.branches.length).1) := hproduced
  have htold : r.events = [.fired (.ofStep fan.split)] := hevents
  have harrive : ((base.splitSlot fan).transition.filled (shareOf held (base.stepAt fan.split))
      pending).arrive (drive fuel) fuel ((base.splitSlot fan).facing hs) 0 t s =
      some ⟨r, .split, (s.take fan.branches.length).2, .ok ()⟩ := by
    rw [← houtputs] at hfire ⊢
    exact Transition.arrive_split hheld hfire
  have hplaces := hfollows.places.trans places
  have hordinary : ∀ x ∈ r.produced, ∀ hold, r.holdings[x.1]? = some hold → hold.isTerminal = false := by
    rw [hmade]
    intro y hy
    obtain ⟨x, hx, rfl⟩ := List.mem_map.1 hy
    exact h.ordinary hplaces (h.before_terminal.2 x.1 (crew_members hx)).1
  refine ⟨r.holdings, hplaces, by rw [hlies, zero_add], ?_⟩
  rw [during_attend h.split harrive, during_visited (h.becomes_split r.holdings) hordinary, hmade,
    htold, h.todos_notices fun _ => crew_members, List.nil_append]

theorem todos_apart (h : base.Fanned fan) {ids : List TokenId} (hids : ids.length = fan.branches.length) :
    ((base.todos (fan.crew t ids)).map (·.1)).Nodup := by
  have hplaces := h.todos_nodup
  rw [← crew_branches (t := t) hids, List.map_map] at hplaces
  rwa [todos, List.map_map]

theorem tasks_apart (h : base.Fanned fan) {ids : List TokenId} (hids : ids.length = fan.branches.length) :
    ((base.tasks (fan.crew t ids)).map (·.1)).Nodup := by
  have hsteps : (fan.branches.map (base.stepAt ·.task)).Nodup :=
    h.todos_nodup.of_map.map_on fun _ ha _ hb hsame => h.task_inj ha hb hsame
  rw [← crew_branches (t := t) hids, List.map_map] at hsteps
  rwa [tasks, List.map_map]

/-- A new net at the start. -/
theorem entered_during (h : base.Fanned fan) (t : Token) : base.entered t =
    base.during (base.holdings.modify (base.placeAt fan.start) (·.add t)) [] [] := by
  have hslots : base.activate.slots = (base.during base.holdings [] []).slots := by
    refine List.ext_getElem? fun i => ?_
    cases hi : base.slots[i]? with
    | none => simp [activate, during, hi]
    | some slot =>
      obtain ⟨step, -, rfl, -⟩ := h.built.step_at hi
      rw [during_slot hi]
      change (base.slots.map _)[i]? = some { base.fitted step with
        phase := .active, transition := (base.fitted step).transition.filled [] [] }
      rw [List.getElem?_map, hi, fitted, Transition.filled_ofFitting]
      rfl
  rw [entered, h.start]
  exact congrArg (fun slots : List Slot => ({ base with
    status := .running, slots,
    holdings := base.holdings.modify (base.placeAt fan.start) (·.add t) } : Engine)) hslots

/-- The start calls for every task. -/
theorem opens (h : base.Fanned fan) (enough : fan.branches.length + 1 < fuel) :
    ∃ hs, hs.map (·.place) = base.holdings.map (·.place) ∧ spread Holding.tokens hs = 0 ∧
      base.answer fuel s (.start t) = some
        ⟨base.during hs (base.tasks (fan.crew t (s.take fan.branches.length).1)) [],
          (s.take fan.branches.length).2, .fired (.ofStep fan.split) ::
            (fan.crew t (s.take fan.branches.length).1).flatMap fun x => x.1.begun x.2, .ok ()⟩ := by
  obtain ⟨fuel, rfl⟩ := Nat.exists_eq_succ_of_ne_zero (Nat.ne_zero_of_lt enough)
  have hplaces : (base.holdings.modify (base.placeAt fan.start) (·.add t)).map (·.place) =
      base.holdings.map (·.place) := Reaction.map_place_modify base.holdings _ t
  have hlies : spread Holding.tokens (base.holdings.modify (base.placeAt fan.start) (·.add t)) =
      {(base.placeAt fan.start, t)} := by
    rw [spread_add t (h.range rfl fan.mem_places.1), h.built.spread_eq_zero]
    rfl
  have henter : base.enter t = .ok (base.during
      (base.holdings.modify (base.placeAt fan.start) (·.add t)) [] [],
      [⟨base.stepAt fan.split, 0, t⟩], []) := by
    rw [enter_created h.built.status, h.entered_during, h.start,
      acceptAll_ordinary rfl (List.forall_mem_singleton.2 (h.ordinary hplaces h.before_terminal.1)),
      List.flatMap_singleton, during_notices, notices, h.consumers_start]
    rfl
  have hcrew : (fan.crew t (s.take fan.branches.length).1).length < fuel := by
    rw [Fan.crew, List.length_zip]
    omega
  obtain ⟨mid, hplaces, hlies, hparts⟩ := h.parts fuel [] [] s hplaces hlies
  obtain ⟨last, hplaces, hlies, hbegin⟩ := h.begin_all (fan.crew t (s.take fan.branches.length).1)
    [] [] (s.take fan.branches.length).2 (fun _ => crew_members) (h.todos_apart (by simp [Supply.take])) hplaces hlies hcrew
  refine ⟨last, hplaces, hlies, ?_⟩
  simp only [answer, startWith, henter, hparts, hbegin]
  rfl

end Fanned

def confluence (base : Engine) (fan : Fan) (hs : List Holding) (pending : List Generation) :
    Confluence where
  step := fan.join
  inputs := fan.reads.map base.placeAt
  output := base.placeAt fan.terminal
  holdings := hs
  pending := pending

def concluded (base : Engine) (fan : Fan) (hs : List Holding) (t : Token) : Engine :=
  { base.during hs [] [] with status := .completed, completion := some (fan.terminal, t) }

/-- The places and the join of a net with a fan of which some tasks have finished: their tokens
have come before the join, which has been told of some of them. -/
structure Midway (base : Engine) (fan : Fan) (t : Token) (crew finished told : List (Branch × Token))
    (hs : List Holding) (pending : List Generation) : Prop where
  places : hs.map (·.place) = base.holdings.map (·.place)
  lies : spread Holding.tokens hs = (base.dones finished : Multiset _)
  sound : Confluence.Sound [⟨t, base.dones crew⟩] (base.dones finished) (base.dones told) []
    (base.confluence fan hs pending)

namespace Fanned

theorem families (h : base.Fanned fan) {ids : List TokenId} (hids : ids.length = fan.branches.length)
    (distinct : ids.Nodup) : Families (fan.reads.map base.placeAt) [⟨t, base.dones (fan.crew t ids)⟩] := by
  have htokens : (base.dones (fan.crew t ids)).map (·.2.id) = ids := by
    rw [dones, List.map_map]
    exact crew_ids hids
  have hplaces : (base.dones (fan.crew t ids)).map (·.1) = fan.branches.map (base.placeAt ·.done) := by
    conv_rhs => rw [← crew_branches (t := t) hids]
    rw [dones, List.map_map, List.map_map]
    rfl
  refine ⟨List.nodup_singleton _, ?_, List.forall_mem_singleton.2 ?_, List.forall_mem_singleton.2 ?_⟩
  · rw [List.flatMap_singleton, htokens]
    exact distinct
  · intro u hu
    obtain ⟨x, hx, rfl⟩ := List.mem_map.1 hu
    obtain ⟨id, -, hid⟩ := List.mem_map.1 (List.of_mem_zip hx).2
    exact hid ▸ rfl
  · intro place
    rw [hplaces, h.inputs.count_eq]

theorem midway (h : base.Fanned fan) (crew : List (Branch × Token))
    (places : hs.map (·.place) = base.holdings.map (·.place))
    (lies : spread Holding.tokens hs = 0) : Midway base fan t crew [] [] hs [] := by
  refine ⟨places, lies, Confluence.Ready.sound ⟨?_, ?_, h.range places fan.mem_places.2.1, ?_, rfl⟩ _⟩
  · exact h.reads_some
  · intro p hp
    obtain ⟨branch, hbranch, rfl⟩ := List.mem_map.1 (h.inputs.mem_iff.1 hp)
    have hlt := h.range places (fan.mem_places.2.2 branch hbranch).2
    refine ⟨_, List.getElem?_eq_getElem hlt, List.eq_nil_iff_forall_not_mem.2 fun u hu => ?_⟩
    have hmem : (base.placeAt branch.done, u) ∈ spread Holding.tokens hs :=
      mem_spread.2 ⟨_, List.getElem?_eq_getElem hlt, hu⟩
    rw [lies] at hmem
    exact Multiset.notMem_zero _ hmem
  · intro hmem
    obtain ⟨branch, hbranch, hsame⟩ := List.mem_map.1 (h.inputs.mem_iff.1 hmem)
    exact (h.before_terminal.2 branch hbranch).2 hsame

/-- The join notes a token. -/
theorem join_waits (h : base.Fanned fan) {pending' : List Generation} {k : Nat} {u : Token}
    (answer : Join.arrive pending ((base.joinSlot fan).facing hs) k u =
      ((base.joinSlot fan).facing hs, pending', .ok ())) :
    drive (fuel + 2) (base.during hs held pending) [⟨base.stepAt fan.join, k, u⟩] s =
      some ⟨base.during hs held pending', s, [], .ok ()⟩ := by
  rw [during_attend h.join (Transition.arrive_join answer fan.reads.length),
    during_visited (h.becomes_join hs pending') (List.forall_mem_nil _)]
  rfl

/-- The join makes a token whole, which ends the run. -/
theorem join_fires (h : base.Fanned fan) {k : Nat} {u : Token} {r : Reaction}
    (answer : Join.arrive pending ((base.joinSlot fan).facing hs) k u = (r, [], .ok ()))
    (places : r.holdings.map (·.place) = base.holdings.map (·.place))
    (reports : r.events = [.fired (.ofStep fan.join)])
    (produced : r.produced = [(base.placeAt fan.terminal, t)]) :
    drive (fuel + 2) (base.during hs [] pending) [⟨base.stepAt fan.join, k, u⟩] s =
      some ⟨base.concluded fan r.holdings t, s,
        [.fired (.ofStep fan.join), .completed fan.terminal t], .ok ()⟩ := by
  have hat := List.getElem?_eq_getElem (h.range places fan.mem_places.2.1)
  obtain ⟨hterminal, hid⟩ := h.ends_at places hat
  obtain ⟨notices, haccept⟩ := acceptAll_terminal (e := base.during r.holdings [] []) (t := t) rfl hat
    (hterminal.2 rfl)
  have hbecomes : (base.during hs [] pending).become (base.stepAt fan.join) r.holdings
      (.join fan.reads.length []) = base.during r.holdings [] [] := h.becomes_join r.holdings []
  have hvisit : (base.during hs [] pending).visited (base.stepAt fan.join)
      ⟨r, .join fan.reads.length [], s, .ok ()⟩ =
      ⟨base.concluded fan r.holdings t, notices, s,
        [.fired (.ofStep fan.join), .completed fan.terminal t], .ok ()⟩ := by
    rw [← produced, ← hbecomes] at haccept
    rw [visited_ok haccept, reports, hbecomes, hid.2 rfl]
    rfl
  rw [during_attend h.join (Transition.arrive_join answer fan.reads.length), hvisit]
  simp only [Visit.andThen, List.nil_append]
  rw [drive_ended (by simp [concluded])]
  rfl

/-- A task that finishes puts its token into the place behind it, and the join is told. -/
theorem finishes (h : base.Fanned fan) (hx : x.1 ∈ fan.branches)
    (places : hs.map (·.place) = base.holdings.map (·.place)) {k : Nat}
    (hk : (fan.reads.map base.placeAt)[k]? = some (base.placeAt x.1.done)) {rest : List (Branch × Token)}
    (away : ∀ y ∈ base.tasks rest, y.1 ≠ base.stepAt x.1.task) :
    complete fuel [x.1.task] (base.during hs (base.tasks (x :: rest)) pending) x.2.id 0 s =
      (drive fuel (base.during (hs.modify (base.placeAt x.1.done) (·.add x.2)) (base.tasks rest) pending)
        [⟨base.stepAt fan.join, k, x.2⟩] s).map (·.after []) := by
  have hslot : (base.during hs (base.tasks (x :: rest)) pending).slots[base.stepAt x.1.task]? = _ :=
    during_slot (h.task hx)
  have hindex : slotIndex? (base.during hs (base.tasks (x :: rest)) pending).slots x.1.task =
      some (base.stepAt x.1.task) := by
    refine findIdx?_name ?_ hslot
    rw [during_map Slot.step fun _ _ _ => rfl]
    exact (Fits.of_build (build_of_built h.built)).distinctSteps
  have hnone : shareOf (base.tasks rest) (base.stepAt x.1.task) = [] := shareOf_eq_nil away
  have hshare : shareOf (base.tasks (x :: rest)) (base.stepAt x.1.task) = [x.2] := by
    rw [tasks, List.map_cons, shareOf_cons_self]
    exact congrArg _ hnone
  have hothers : ∀ j, j ≠ base.stepAt x.1.task →
      shareOf (base.tasks (x :: rest)) j = shareOf (base.tasks rest) j :=
    fun j hne => shareOf_cons_ne (Ne.symm hne) x.2 _
  have hcomplete := complete_task (e := base.during hs (base.tasks (x :: rest)) pending) rfl hindex
    hslot rfl fuel x.2.id 0 s
  have hrelease : release (shareOf (base.tasks (x :: rest)) (base.stepAt x.1.task)) x.1.activity
      ((base.taskSlot x.1).facing hs) x.2.id 0 s =
      ⟨((base.taskSlot x.1).facing hs).put (base.placeAt x.1.done) x.2,
        .task x.1.activity (shareOf (base.tasks rest) (base.stepAt x.1.task)), s, .ok ()⟩ := by
    rw [hshare, hnone]
    simp [release, Reaction.produce, Reaction.outputPlace, Slot.facing, taskSlot, Except.map]
  have hplaces : (hs.modify (base.placeAt x.1.done) (·.add x.2)).map (·.place) =
      base.holdings.map (·.place) := (Reaction.map_place_modify hs _ x.2).trans places
  have hproduced : (((base.taskSlot x.1).facing hs).put (base.placeAt x.1.done) x.2).produced =
      [(base.placeAt x.1.done, x.2)] := rfl
  refine hcomplete.trans ?_
  change ((base.during hs (base.tasks (x :: rest)) pending).visited _ (release
    (shareOf (base.tasks (x :: rest)) (base.stepAt x.1.task)) x.1.activity
      ((base.taskSlot x.1).facing hs) x.2.id 0 s)).andThen (drive fuel) [] = _
  rw [hrelease, during_visited (h.becomes_task hx _ hothers) ?_, hproduced, List.flatMap_singleton,
    notices, h.consumers_done hk]
  · rfl
  · rw [hproduced]
    exact List.forall_mem_singleton.2 (h.ordinary hplaces (h.before_terminal.2 x.1 hx).2)

end Fanned

section

variable {ids : List TokenId} {finished rest : List (Branch × Token)} {k : Nat}

/-- A token comes into the place behind its task. -/
theorem Midway.comes (h : base.Fanned fan) (hids : ids.length = fan.branches.length) (distinct : ids.Nodup)
    (hx : x ∈ fan.crew t ids) (new : (base.placeAt x.1.done, x.2) ∉ base.dones finished)
    (m : Midway base fan t (fan.crew t ids) finished finished hs pending) :
    Midway base fan t (fan.crew t ids) (x :: finished) finished
      (hs.modify (base.placeAt x.1.done) (·.add x.2)) pending where
  places := (Reaction.map_place_modify hs _ x.2).trans m.places
  lies := by
    rw [spread_add x.2 (h.range m.places (fan.mem_places.2.2 _ (Fanned.crew_members hx)).2), m.lies]
    rfl
  sound := m.sound.comes (h.families hids distinct) (List.mem_singleton_self _) (List.mem_map_of_mem hx) new

/-- The join is told of the token: it waits while some are missing, and with the last one it
makes the token whole that was parted. -/
theorem Midway.told (h : base.Fanned fan) (hids : ids.length = fan.branches.length) (distinct : ids.Nodup)
    (all : (x :: finished ++ rest).Perm (fan.crew t ids))
    (hk : (fan.reads.map base.placeAt)[k]? = some (base.placeAt x.1.done))
    (m : Midway base fan t (fan.crew t ids) (x :: finished) finished hs pending) :
    (rest ≠ [] ∧ ∃ pending', Join.arrive pending ((base.joinSlot fan).facing hs) k x.2 =
        ((base.joinSlot fan).facing hs, pending', .ok ()) ∧
      Midway base fan t (fan.crew t ids) (x :: finished) (x :: finished) hs pending') ∨
    (rest = [] ∧ ∃ r, Join.arrive pending ((base.joinSlot fan).facing hs) k x.2 = (r, [], .ok ()) ∧
      r.holdings.map (·.place) = base.holdings.map (·.place) ∧
      r.events = [.fired (.ofStep fan.join)] ∧ r.produced = [(base.placeAt fan.terminal, t)] ∧
      spread Holding.tokens r.holdings = {(base.placeAt fan.terminal, t)}) := by
  have hfamilies : Families _ [⟨t, base.dones (fan.crew t ids)⟩] := h.families hids distinct
  have hx : x ∈ fan.crew t ids := all.mem_iff.1 List.mem_cons_self
  obtain ⟨made, c', turn, hsound⟩ := m.sound.told hfamilies (List.mem_singleton_self _)
    (List.mem_map_of_mem hx) List.mem_cons_self hk
  cases turn with
  | @waits _ _ pending' answer =>
    refine .inl ⟨?_, pending', answer, m.places, m.lies, hsound⟩
    rintro rfl
    rw [List.append_nil] at all
    -- all siblings have been announced, so the family would have been made whole
    have hwhole := hsound.of_all_heard hfamilies h.reads_some (List.mem_singleton_self _)
      fun y hy => (all.map _).mem_iff.2 hy
    cases hwhole
  | @fires _ _ pending' r family left answer reports produced before after =>
    obtain ⟨hmember, hsub⟩ := hsound.whole family (List.mem_singleton_self _)
    obtain rfl := List.mem_singleton.1 hmember
    have hdones : (base.dones (x :: finished) ++ base.dones rest).Perm (base.dones (fan.crew t ids)) := by
      rw [dones, dones, ← List.map_append]
      exact all.map _
    obtain rfl : rest = [] := by
      have hnodup := hdones.nodup_iff.2 ((hfamilies.nodup (List.mem_singleton_self _)).of_map _)
      refine List.eq_nil_iff_forall_not_mem.2 fun y hy => ?_
      have hlate : (base.placeAt y.1.done, y.2) ∈ base.dones rest := List.mem_map_of_mem hy
      have hearly := hsub (hdones.mem_iff.1 (List.mem_append_right _ hlate))
      exact (List.nodup_append.1 hnodup).2.2 _ hearly _ hlate rfl
    obtain ⟨hpending, -⟩ := hsound.cleared (List.Subset.refl _)
    obtain rfl : pending' = [] := hpending
    have hfollows := Join.arrive_follows pending ((base.joinSlot fan).facing hs) k x.2
    have hanswer : Join.arrive pending ((base.joinSlot fan).facing hs) k x.2 = (r, [], .ok ()) := answer
    rw [hanswer] at hfollows
    have hleft : left = 0 := by
      have hbefore : spread Holding.tokens hs = left + (base.dones (fan.crew t ids) : Multiset _) := before
      have hnone : base.dones [] = [] := rfl
      rw [m.lies, ← Multiset.coe_eq_coe.2 hdones, hnone, List.append_nil] at hbefore
      exact right_eq_add.1 hbefore
    refine .inr ⟨rfl, r, answer, hfollows.places.trans m.places, reports, produced, ?_⟩
    rw [after, hleft]
    rfl

/-- A task finishes: its token waits before the join, or it is the last one and the run ends. -/
theorem Midway.next (h : base.Fanned fan) (hids : ids.length = fan.branches.length) (distinct : ids.Nodup)
    (all : (finished ++ x :: rest).Perm (fan.crew t ids))
    (m : Midway base fan t (fan.crew t ids) finished finished hs pending) :
    (rest ≠ [] ∧ ∃ hs' pending',
      Midway base fan t (fan.crew t ids) (x :: finished) (x :: finished) hs' pending' ∧
      complete (fuel + 2) [x.1.task] (base.during hs (base.tasks (x :: rest)) pending) x.2.id 0 s =
        some ⟨base.during hs' (base.tasks rest) pending', s, [], .ok ()⟩) ∨
    (rest = [] ∧ ∃ hs', hs'.map (·.place) = base.holdings.map (·.place) ∧
      spread Holding.tokens hs' = {(base.placeAt fan.terminal, t)} ∧
      complete (fuel + 2) [x.1.task] (base.during hs (base.tasks (x :: rest)) pending) x.2.id 0 s =
        some ⟨base.concluded fan hs' t, s,
          [.fired (.ofStep fan.join), .completed fan.terminal t], .ok ()⟩) := by
  have hperm : (x :: finished ++ rest).Perm (fan.crew t ids) := List.perm_middle.symm.trans all
  have hx : x ∈ fan.crew t ids := hperm.mem_iff.1 List.mem_cons_self
  have hbranch := Fanned.crew_members hx
  obtain ⟨k, hk⟩ := List.mem_iff_getElem?.1 (h.inputs.mem_iff.2 (List.mem_map_of_mem hbranch))
  have hnew : (base.placeAt x.1.done, x.2) ∉ base.dones finished := by
    have hdones := ((h.families (t := t) hids distinct).nodup (List.mem_singleton_self _)).of_map
    have hnodup : (base.dones (x :: finished ++ rest)).Nodup := (hperm.map _).nodup_iff.2 hdones
    rw [dones, List.cons_append, List.map_cons, List.map_append, List.nodup_cons] at hnodup
    exact fun hmem => hnodup.1 (List.mem_append_left _ hmem)
  have haway : ∀ y ∈ base.tasks rest, y.1 ≠ base.stepAt x.1.task := by
    have hnodup := ((hperm.map _).map _).nodup_iff.2 (h.tasks_apart (t := t) hids)
    rw [List.cons_append, List.map_cons, List.map_cons, List.map_append, List.map_append,
      List.nodup_cons] at hnodup
    exact fun y hy hsame => hnodup.1 (List.mem_append_right _ (List.mem_map.2 ⟨y, hy, hsame⟩))
  rw [h.finishes hbranch m.places hk haway]
  rcases (m.comes h hids distinct hx hnew).told h hids distinct hperm hk with
    ⟨hrest, pending', answer, m'⟩ | ⟨rfl, r, answer, hplaces, hreports, hproduced, hlies⟩
  · refine .inl ⟨hrest, _, pending', m', ?_⟩
    rw [h.join_waits answer]
    rfl
  · refine .inr ⟨rfl, r.holdings, hplaces, hlies, ?_⟩
    have hnone : base.tasks [] = [] := rfl
    rw [hnone, h.join_fires answer hplaces hreports hproduced]
    rfl

end

/-- Places of which only one holds anything, and that a single token. -/
theorem tokens_of_spread {q : Nat} {hold : Holding} (lies : spread Holding.tokens hs = {(q, t)})
    (hp : hs[p]? = some hold) : hold.tokens = if p = q then [t] else [] := by
  have hle : ((hold.tokens.map (p, ·) : List (Nat × Token)) : Multiset (Nat × Token)) ≤ {(q, t)} := by
    have hemptied := spread_modify Holding.tokens (fun old => { old with tokens := [] }) hp
    rw [List.map_nil, Multiset.coe_nil, add_zero, lies] at hemptied
    rw [← hemptied]
    exact Multiset.le_add_left _ _
  rcases Multiset.le_singleton.1 hle with hnone | hone
  · have hempty := List.map_eq_nil_iff.1 ((Multiset.coe_eq_zero _).1 hnone)
    rw [hempty, if_neg]
    rintro rfl
    have hmem : (p, t) ∈ spread Holding.tokens hs := lies ▸ Multiset.mem_singleton_self _
    obtain ⟨hold', hp', ht⟩ := mem_spread.1 hmem
    obtain rfl := Option.some.inj (hp'.symm.trans hp)
    rw [hempty] at ht
    cases ht
  · obtain ⟨u, hu, heq⟩ := List.map_eq_singleton_iff.1 (Multiset.coe_eq_singleton.1 hone)
    cases heq
    rw [hu, if_pos rfl]

/-- What comes of the reports on all tasks of a fan: the net waits until the last one, with
which the token that was parted is whole again in the terminal place and nothing else is
left. -/
structure Meets (fan : Fan) (t : Token) (quiet : List Outcome) (last : Outcome) : Prop where
  waits : ∀ out ∈ quiet, out.result = .ok () ∧ out.engine.status = .running ∧ out.events = []
  result : last.result = .ok ()
  status : last.engine.status = .completed
  completion : last.engine.completion = some (fan.terminal, t)
  events : last.events = [.fired (.ofStep fan.join), .completed fan.terminal t]
  places : ∀ hold ∈ last.engine.holdings,
    hold.tokens = if hold.place.id = fan.terminal then [t] else []
  steps : ∀ slot ∈ last.engine.slots, slot.transition = .split ∨
    (∃ inputs, slot.transition = .join inputs []) ∨ ∃ activity, slot.transition = .task activity []

theorem Fanned.meets (h : base.Fanned fan) (places : hs.map (·.place) = base.holdings.map (·.place))
    (lies : spread Holding.tokens hs = {(base.placeAt fan.terminal, t)}) :
    Meets fan t [] ⟨base.concluded fan hs t,
      [.fired (.ofStep fan.join), .completed fan.terminal t], .ok ()⟩ where
  waits := List.forall_mem_nil _
  result := rfl
  status := rfl
  completion := rfl
  events := rfl
  places := by
    intro hold hmem
    obtain ⟨p, hp⟩ := List.mem_iff_getElem?.1 hmem
    rw [tokens_of_spread lies hp]
    exact if_congr (h.ends_at places hp).2.symm rfl rfl
  steps := by
    intro slot hmem
    obtain ⟨i, hi⟩ := List.mem_iff_getElem?.1 hmem
    cases hold : base.slots[i]? with
    | none =>
      have hnone : (base.during hs [] []).slots[i]? = none := by simp [during, hold]
      cases hnone.symm.trans hi
    | some old =>
      have hslot : (base.during hs [] []).slots[i]? =
          some { old with phase := .active, transition := old.transition.filled [] [] } :=
        during_slot hold
      obtain rfl := Option.some.inj
        (hslot.symm.trans hi)
      rcases h.steps hold with rfl | rfl | ⟨branch, hbranch, rfl⟩
      · cases hold.symm.trans h.split
        exact .inl rfl
      · cases hold.symm.trans h.join
        exact .inr (.inl ⟨_, rfl⟩)
      · cases hold.symm.trans (h.task hbranch)
        exact .inr (.inr ⟨_, rfl⟩)

/-- However many tasks have finished, the others may do so in any order. -/
theorem Midway.meets (h : base.Fanned fan) {ids : List TokenId} (hids : ids.length = fan.branches.length)
    (distinct : ids.Nodup) {finished rest : List (Branch × Token)} (some : rest ≠ [])
    (all : (finished ++ rest).Perm (fan.crew t ids))
    (m : Midway base fan t (fan.crew t ids) finished finished hs pending) :
    ∃ quiet last, (base.during hs (base.tasks rest) pending).asked (fuel + 2) s
        (rest.map fun x => .call (.complete [x.1.task] x.2.id 0)) =
      Option.some (quiet ++ [last], s) ∧ Meets fan t quiet last := by
  induction rest generalizing finished hs pending with
  | nil => exact absurd rfl some
  | cons x rest ih =>
    rcases m.next h hids distinct all with
      ⟨hrest, hs', pending', m', hrun⟩ | ⟨rfl, hs', hplaces, hlies, hrun⟩
    · have hothers : (x :: finished ++ rest).Perm (fan.crew t ids) := List.perm_middle.symm.trans all
      obtain ⟨quiet, last, hasked, hmeets⟩ := ih hrest hothers m'
      refine ⟨_ :: quiet, last, asked_cons.2 ⟨_, _, hrun, hasked, rfl⟩, { hmeets with
        waits := List.forall_mem_cons.2 ⟨⟨rfl, rfl, rfl⟩, hmeets.waits⟩ }⟩
    · exact ⟨[], _, asked_cons.2 ⟨_, _, hrun, rfl, rfl⟩, h.meets hplaces hlies⟩

/-- The tasks that the start begins, by address and token. -/
theorem starts_opening (crew : List (Branch × Token)) :
    starts (.fired (.ofStep fan.split) :: crew.flatMap fun x => x.1.begun x.2) =
      crew.map fun x => ([x.1.task], x.2.id) := by
  have hnone : ∀ events, starts (.fired (.ofStep fan.split) :: events) = starts events := fun _ => rfl
  rw [hnone]
  induction crew with
  | nil => rfl
  | cons x crew ih =>
    rw [List.flatMap_cons, starts_append, ih]
    rfl

/-- The start reports the split and the tasks. -/
theorem opening_quiet (named : fan.Named) (members : ∀ x ∈ crew, x.1 ∈ fan.branches) :
    ∀ e ∈ .fired (.ofStep fan.split) :: crew.flatMap fun x => x.1.begun x.2,
      e ≠ .fired (.ofStep fan.join) ∧ ∀ place u, e ≠ .completed place u := by
  obtain ⟨hsplit, hrest⟩ := List.nodup_cons.1 named.distinctSteps
  obtain ⟨hjoin, -⟩ := List.nodup_cons.1 hrest
  have hfired : ∀ {id}, Event.fired (.ofStep id) = .fired (.ofStep fan.join) → id = fan.join := by
    rintro id h
    cases h
    rfl
  refine List.forall_mem_cons.2 ⟨⟨fun h => hsplit ?_, nofun⟩, fun e he => ?_⟩
  · rw [hfired h]
    exact List.mem_cons_self
  · obtain ⟨x, hx, he⟩ := List.mem_flatMap.1 he
    rcases List.mem_pair.1 he with rfl | rfl
    · refine ⟨fun h => hjoin ?_, nofun⟩
      rw [← hfired h]
      exact List.mem_map.2 ⟨_, List.mem_map_of_mem (members x hx), rfl⟩
    · exact ⟨nofun, nofun⟩

/-- The tasks of a crew that has begun may finish in any order. -/
theorem Fanned.in_any_order (h : base.Fanned fan) {ids : List TokenId}
    (hids : ids.length = fan.branches.length) (distinct : ids.Nodup)
    (places : hs.map (·.place) = base.holdings.map (·.place)) (lies : spread Holding.tokens hs = 0)
    {order : List (List String × TokenId)}
    (perm : order.Perm ((fan.crew t ids).map fun x => ([x.1.task], x.2.id))) :
    ∃ quiet last, (base.during hs (base.tasks (fan.crew t ids)) []).asked (fuel + 2) s
        (order.map fun x => .call (.complete x.1 x.2 0)) =
      some (quiet ++ [last], s) ∧ Meets fan t quiet last := by
  obtain ⟨rest, rfl, hrest⟩ := (congrFun₂ (List.eq_map_comp_perm _) order _).mpr perm
  have hsome : rest ≠ [] := by
    rintro rfl
    have hlength := congrArg List.length (crew_branches (t := t) hids)
    rw [List.length_map, ← hrest.length_eq] at hlength
    exact h.fans.some (List.length_eq_zero_iff.1 hlength.symm)
  have hsame : base.during hs (base.tasks (fan.crew t ids)) [] = base.during hs (base.tasks rest) [] :=
    during_congr (shareOf_perm (hrest.map _).symm (h.tasks_apart hids))
  rw [hsame, List.map_map]
  have hall : ([] ++ rest).Perm (fan.crew t ids) := hrest
  exact (h.midway (fan.crew t ids) places lies).meets h hids distinct hsome hall

/-- Whatever parts its work into tasks and brings it together again: the start calls for
every task once, and in whatever order the tasks finish, the last one ends the run with the
very token that it was started with. -/
theorem tasks_meet_in_any_order {plan : Plan} (fans : plan.Fans fan) (named : fan.Named) (t : Token)
    (distinct : (s.take fan.branches.length).1.Nodup) :
    ∃ base bound, build .standard plan = .ok base ∧ ∀ fuel, bound ≤ fuel →
      ∃ run, base.answer fuel s (.start t) = some run ∧ run.result = .ok () ∧
        run.engine.status = .running ∧
        (starts run.events).map (·.1) = fan.branches.map ([·.task]) ∧
        (∀ e ∈ run.events, e ≠ .fired (.ofStep fan.join) ∧ ∀ place u, e ≠ .completed place u) ∧
        ∀ order : List (List String × TokenId), order.Perm (starts run.events) → ∃ quiet last supply,
          run.engine.asked fuel run.supply (order.map fun x => .call (.complete x.1 x.2 0)) =
            some (quiet ++ [last], supply) ∧ Meets fan t quiet last := by
  obtain ⟨base, build⟩ := build_isOk Fitter.standard_regular
    ((Plan.flaws_eq_nil_iff_wellFormed plan).2 (fans.wellFormed named))
  have hbuilt := built_of_build build
  have h : base.Fanned fan := ⟨by rwa [hbuilt.runs], by rwa [hbuilt.runs]⟩
  have hids : (s.take fan.branches.length).1.length = fan.branches.length := by simp [Supply.take]
  refine ⟨base, fan.branches.length + 2, build, fun fuel hle => ?_⟩
  obtain ⟨fuel, rfl⟩ : ∃ less, fuel = less + 2 := Nat.exists_eq_add_of_le' (le_of_add_le_right hle)
  obtain ⟨hs, hplaces, hlies, hopens⟩ := h.opens (s := s) (t := t) hle
  refine ⟨_, hopens, rfl, rfl, ?_, opening_quiet named fun _ => Fanned.crew_members, fun order perm => ?_⟩
  · conv_rhs => rw [← Fanned.crew_branches (t := t) hids, List.map_map]
    rw [starts_opening, List.map_map]
    rfl
  · rw [starts_opening] at perm
    obtain ⟨quiet, last, hasked, hmeets⟩ := h.in_any_order hids distinct hplaces hlies perm
    exact ⟨quiet, last, _, hasked, hmeets⟩

def bicycle : Fan where
  start := "ordered"
  split := "hand out"
  branches := [⟨"tubes", "weld", "welding", "frame"⟩, ⟨"spokes", "lace", "lacing", "wheels"⟩,
    ⟨"cables", "strip", "stripping", "brakes"⟩]
  join := "put together"
  reads := ["brakes", "frame", "wheels"]
  terminal := "ridden"

def smithy : Plan where
  id := "smithy"
  version := 1
  places := [{ id := "ordered", role := .start }, { id := "ridden", role := .terminal },
    { id := "tubes" }, { id := "spokes" }, { id := "cables" }, { id := "frame" },
    { id := "wheels" }, { id := "brakes" }]
  steps := [⟨"weld", none, ["tubes"], ["frame"], .task "welding"⟩,
    ⟨"lace", none, ["spokes"], ["wheels"], .task "lacing"⟩,
    ⟨"strip", none, ["cables"], ["brakes"], .task "stripping"⟩,
    ⟨"hand out", none, ["ordered"], ["tubes", "spokes", "cables"], .split⟩,
    ⟨"put together", none, ["brakes", "frame", "wheels"], ["ridden"], .join⟩]

theorem smithy_fans : smithy.Fans bicycle where
  some := by decide
  inputs := by decide
  places := .refl _
  start := by decide
  terminal := by decide
  steps := (List.perm_append_comm : ([_, _, _] ++ [_, _]).Perm _)

theorem bicycle_named : bicycle.Named where
  places := by decide
  distinctPlaces := by decide
  steps := by decide
  distinctSteps := by decide

/-- The parts of the bicycle are ready in the opposite order. -/
theorem smithy_meets : ∃ (base : Engine) (fuel : Nat) (run : Run) (quiet : List Outcome)
    (last : Outcome) (supply : Supply), build .standard smithy = .ok base ∧
      base.answer fuel serial (.start job) = some run ∧
      run.engine.asked fuel run.supply
          ((starts run.events).reverse.map fun x => .call (.complete x.1 x.2 0)) =
        some (quiet ++ [last], supply) ∧ last.engine.completion = some ("ridden", job) := by
  obtain ⟨base, bound, hbuild, hall⟩ := tasks_meet_in_any_order (s := serial) smithy_fans bicycle_named
    job (by decide)
  obtain ⟨run, hrun, -, -, -, -, horder⟩ := hall bound le_rfl
  obtain ⟨quiet, last, supply, hasked, hmeets⟩ := horder _ (List.reverse_perm _)
  exact ⟨base, bound, run, quiet, last, supply, hbuild, hrun, hasked, hmeets.completion⟩

end Engine

end RecipeNet
