import Mathlib.Algebra.BigOperators.Group.List.Basic
import RecipeNet.Proofs.Net.Marking

/-!
Books on the tokens of a net and of the nets that run in its steps. They say by the address of a net
which tokens it has, and are kept with what splits and joins exchange, with the tokens that nested
nets begin with, and with what is left in nested nets when they have ended.
-/

namespace RecipeNet

/-- Identities of tokens, by the address of the net that has them. The address of the outermost
net is empty. -/
abbrev Ledger := List String → Multiset TokenId

namespace Ledger

def own (ids : Multiset TokenId) : Ledger
  | [] => ids
  | _ :: _ => 0

def within (outer : String) (l : Ledger) : Ledger
  | [] => 0
  | step :: path => if step = outer then l path else 0

def under (path : List String) (l : Ledger) : Ledger := path.foldr within l

theorem own_zero : own 0 = 0 := by
  funext path
  cases path <;> rfl

theorem own_add (ids ids' : Multiset TokenId) : own (ids + ids') = own ids + own ids' := by
  funext path
  cases path with
  | nil => rfl
  | cons => exact (add_zero 0).symm

theorem within_zero (outer : String) : within outer 0 = 0 := by
  funext path
  cases path with
  | nil => rfl
  | cons step path => exact ite_self 0

theorem within_add (outer : String) (l l' : Ledger) :
    within outer (l + l') = within outer l + within outer l' := by
  funext path
  cases path with
  | nil => exact (add_zero 0).symm
  | cons step path =>
    by_cases hstep : step = outer
    · simp only [within, hstep, if_true, Pi.add_apply]
    · simp only [within, hstep, if_false, Pi.add_apply, add_zero]

theorem within_sum {α : Type} (outer : String) (f : α → Ledger) (xs : List α) :
    within outer (xs.map f).sum = (xs.map fun x => within outer (f x)).sum := by
  induction xs with
  | nil => exact within_zero outer
  | cons x rest ih => rw [List.map_cons, List.sum_cons, within_add, ih, List.map_cons, List.sum_cons]

end Ledger

def Marking.ids (m : Marking) : Multiset TokenId := m.map (·.2.id)

def Transition.inside (count : Engine → Multiset TokenId) : Transition → Multiset TokenId
  | .busy _ _ child => count child
  | _ => 0

/-- The tokens of a net and of those within it: the ones in places, and the ones that steps have
taken for a task or for a nested net. -/
def Engine.ledger : Engine → Ledger
  | e, [] => e.marking.ids
  | e, step :: path => (e.slots.map fun slot =>
      if step = slot.step then slot.transition.inside fun child => child.ledger path else 0).sum

def Transition.ledger (tr : Transition) : Ledger := fun path => tr.inside fun child => child.ledger path

/-- What changes the books of a net, besides mishaps. -/
inductive Change where
  /-- A split of the net at an address gives siblings for a token. -/
  | split (path : List String) (step : String) (whole : TokenId) (parts : Multiset TokenId)
  /-- A join of the net at an address gives a token for its siblings. -/
  | joined (path : List String) (step : String) (parts : Multiset TokenId) (whole : TokenId)
  /-- The net at an address begins with a token. -/
  | begun (path : List String) (start : TokenId)
  /-- The net at an address has ended, and what is left in it goes with it. -/
  | ended (path : List String) (rest : Ledger)

namespace Change

def taken : Change → Ledger
  | .split path _ whole _ => .under path (.own {whole})
  | .joined path _ parts _ => .under path (.own parts)
  | .begun _ _ => 0
  | .ended path rest => .under path rest

def made : Change → Ledger
  | .split path _ _ parts => .under path (.own parts)
  | .joined path _ _ whole => .under path (.own {whole})
  | .begun path start => .under path (.own {start})
  | .ended _ _ => 0

def within (outer : String) : Change → Change
  | .split path step whole parts => .split (outer :: path) step whole parts
  | .joined path step parts whole => .joined (outer :: path) step parts whole
  | .begun path start => .begun (outer :: path) start
  | .ended path rest => .ended (outer :: path) rest

def firing? : Change → Option Address
  | .split path step _ _ | .joined path step _ _ => some ⟨path ++ [step]⟩
  | .begun path _ => some ⟨path⟩
  | .ended _ _ => none

def totalTaken (changes : List Change) : Ledger := (changes.map taken).sum

def totalMade (changes : List Change) : Ledger := (changes.map made).sum

theorem totalTaken_singleton (change : Change) : totalTaken [change] = change.taken := List.sum_singleton

theorem totalMade_singleton (change : Change) : totalMade [change] = change.made := List.sum_singleton

theorem totalTaken_append (xs ys : List Change) : totalTaken (xs ++ ys) = totalTaken xs + totalTaken ys := by
  rw [totalTaken, List.map_append, List.sum_append, totalTaken, totalTaken]

theorem totalMade_append (xs ys : List Change) : totalMade (xs ++ ys) = totalMade xs + totalMade ys := by
  rw [totalMade, List.map_append, List.sum_append, totalMade, totalMade]

theorem taken_within (outer : String) (change : Change) :
    (change.within outer).taken = change.taken.within outer := by
  cases change with
  | begun => exact (Ledger.within_zero outer).symm
  | _ => rfl

theorem made_within (outer : String) (change : Change) :
    (change.within outer).made = change.made.within outer := by
  cases change with
  | ended => exact (Ledger.within_zero outer).symm
  | _ => rfl

theorem totalTaken_within (outer : String) (changes : List Change) :
    totalTaken (changes.map (·.within outer)) = (totalTaken changes).within outer := by
  rw [totalTaken, totalTaken, Ledger.within_sum, List.map_map]
  exact congrArg (fun f => (changes.map f).sum) (funext (taken_within outer))

theorem totalMade_within (outer : String) (changes : List Change) :
    totalMade (changes.map (·.within outer)) = (totalMade changes).within outer := by
  rw [totalMade, totalMade, Ledger.within_sum, List.map_map]
  exact congrArg (fun f => (changes.map f).sum) (funext (made_within outer))

theorem firing_within {outer : String} {change : Change} {step : Address}
    (h : step ∈ (change.within outer).firing?) : ∃ inner ∈ change.firing?, step = inner.within outer := by
  cases change with
  | ended => cases h
  | _ => exact ⟨_, rfl, (Option.some.inj h).symm⟩

theorem fires_within {outer : String} {events : List Event} {changes : List Change}
    (h : ∀ change ∈ changes, ∀ step ∈ change.firing?, .fired step ∈ events) :
    ∀ change ∈ changes.map (·.within outer), ∀ step ∈ change.firing?,
      .fired step ∈ events.filterMap (·.within outer) := by
  intro change hchange step hstep
  obtain ⟨inner, hinner, rfl⟩ := List.mem_map.1 hchange
  obtain ⟨address, haddress, rfl⟩ := firing_within hstep
  exact List.mem_filterMap.2 ⟨_, h inner hinner address haddress, rfl⟩

theorem fires_append {events more : List Event} {changes others : List Change}
    (h : ∀ change ∈ changes, ∀ step ∈ change.firing?, .fired step ∈ events)
    (h' : ∀ change ∈ others, ∀ step ∈ change.firing?, .fired step ∈ more) :
    ∀ change ∈ changes ++ others, ∀ step ∈ change.firing?, .fired step ∈ events ++ more :=
  List.forall_mem_append.2 ⟨fun change hchange step hstep => List.mem_append_left _ (h change hchange step hstep),
    fun change hchange step hstep => List.mem_append_right _ (h' change hchange step hstep)⟩

end Change

/-- Tokens that the net at an address has lost, and the fault that has come of it. -/
structure Loss where
  fault : Fault
  path : List String
  tokens : Multiset TokenId

namespace Loss

def within (outer : String) (loss : Loss) : Loss := { loss with path := outer :: loss.path }

def ledger : Option Loss → Ledger
  | some loss => .under loss.path (.own loss.tokens)
  | none => 0

end Loss

def Holding.ids (hs : List Holding) : Multiset TokenId := (spread Holding.tokens hs).map (·.2.id)

def Transition.ids (tr : Transition) : Multiset TokenId := (tr.taken.map (·.id) : List TokenId)

namespace Engine

variable {e e' : Engine} {i : Nat} {slot : Slot} {hs : List Holding} {tr : Transition}

theorem ids_eq (e : Engine) : e.marking.ids =
    Holding.ids e.holdings + (spread (·.transition.taken) e.slots).map (·.2.id) := by
  simp only [marking, Marking.ids, Marking.ofPlaces, Marking.ofSteps, Multiset.map_add,
    Multiset.map_map, Function.comp_def, Holding.ids]

/-- The balance of a net after one of its steps has changed is the balance of that step. -/
theorem ids_become (stands : e.slots[i]? = some slot) {gone made : Multiset TokenId}
    (balance : Holding.ids hs + tr.ids + gone =
      Holding.ids e.holdings + slot.transition.ids + made) :
    (e.become i hs tr).marking.ids + gone = e.marking.ids + made := by
  have hsteps := congrArg (Multiset.map (·.2.id)) (spread_become stands hs tr)
  simp only [Multiset.map_add, Multiset.map_coe, List.map_map, Function.comp_def] at hsteps
  change _ + slot.transition.ids = _ + tr.ids at hsteps
  have hplaces : (e.become i hs tr).holdings = hs := rfl
  rw [ids_eq, ids_eq, hplaces]
  refine add_right_cancel (b := slot.transition.ids) ?_
  calc
    _ = Holding.ids hs + gone + ((spread (·.transition.taken) (e.become i hs tr).slots).map (·.2.id) +
          slot.transition.ids) := by abel
    _ = Holding.ids hs + tr.ids + gone + (spread (·.transition.taken) e.slots).map (·.2.id) := by
      rw [hsteps]
      abel
    _ = _ := by
      rw [balance]
      abel

/-- A step that keeps its tokens within its places and itself loses none. -/
theorem ids_kept (stands : e.slots[i]? = some slot)
    (balance : Holding.ids hs + tr.ids = Holding.ids e.holdings + slot.transition.ids) :
    (e.become i hs tr).marking.ids = e.marking.ids := by
  have hnone : (e.become i hs tr).marking.ids + 0 = e.marking.ids + 0 :=
    ids_become stands (by rw [balance])
  rwa [add_zero, add_zero] at hnone

/-- The books of a net have its own tokens and the books of the nets in its steps. -/
theorem ledger_eq (e : Engine) : e.ledger = .own e.marking.ids +
    (e.slots.map fun slot => slot.transition.ledger.within slot.step).sum := by
  have hsum : ∀ (slots : List Slot) (path : List String),
      (slots.map fun slot => slot.transition.ledger.within slot.step).sum path =
        (slots.map fun slot => slot.transition.ledger.within slot.step path).sum := by
    intro slots path
    induction slots with
    | nil => rfl
    | cons slot rest ih => rw [List.map_cons, List.sum_cons, List.map_cons, List.sum_cons, Pi.add_apply, ih]
  funext path
  rw [Pi.add_apply, hsum]
  cases path with
  | nil =>
    refine (add_zero _).symm.trans (congrArg (e.marking.ids + ·) (List.sum_eq_zero fun x hx => ?_).symm)
    obtain ⟨slot, -, rfl⟩ := List.mem_map.1 hx
    rfl
  | cons step path => exact (zero_add _).symm

/-- The books of a net after one of its steps has changed balance if those of its own tokens
do and those of the net in the step. -/
theorem ledger_become (stands : e.slots[i]? = some slot) {gone made : Multiset TokenId}
    {left begun : Ledger} (own : (e.become i hs tr).marking.ids + gone = e.marking.ids + made)
    (inner : tr.ledger + left = slot.transition.ledger + begun) :
    (e.become i hs tr).ledger + (.own gone + left.within slot.step) =
      e.ledger + (.own made + begun.within slot.step) := by
  have hsteps := sum_map_modify (fun slot : Slot => slot.transition.ledger.within slot.step)
    (fun slot => { slot with transition := tr }) stands
  have hown := congrArg Ledger.own own
  have hinner := congrArg (Ledger.within slot.step) inner
  rw [Ledger.own_add, Ledger.own_add] at hown
  rw [Ledger.within_add, Ledger.within_add] at hinner
  rw [ledger_eq, ledger_eq e]
  refine add_right_cancel (b := slot.transition.ledger.within slot.step) ?_
  calc
    _ = Ledger.own (e.become i hs tr).marking.ids + Ledger.own gone +
          (((e.become i hs tr).slots.map fun slot => slot.transition.ledger.within slot.step).sum +
            slot.transition.ledger.within slot.step) + left.within slot.step := by abel
    _ = Ledger.own e.marking.ids + Ledger.own made +
          (e.slots.map fun slot => slot.transition.ledger.within slot.step).sum +
            (tr.ledger.within slot.step + left.within slot.step) := by
      rw [hown]
      refine (congrArg (· + left.within slot.step) (congrArg (_ + ·) hsteps)).trans ?_
      abel
    _ = _ := by
      rw [hinner]
      abel

/-- A step that runs what it did before changes the net's own tokens only. -/
theorem ledger_own (stands : e.slots[i]? = some slot) {gone made : Multiset TokenId}
    (own : (e.become i hs tr).marking.ids + gone = e.marking.ids + made)
    (inner : tr.ledger = slot.transition.ledger) :
    (e.become i hs tr).ledger + .own gone = e.ledger + .own made := by
  have hledger := ledger_become stands own (congrArg (· + 0) inner)
  rwa [Ledger.within_zero, add_zero, add_zero] at hledger

/-- A net that keeps its own tokens changes as the net in its step does. -/
theorem ledger_inner (stands : e.slots[i]? = some slot) {left begun : Ledger}
    (own : (e.become i hs tr).marking.ids = e.marking.ids)
    (inner : tr.ledger + left = slot.transition.ledger + begun) :
    (e.become i hs tr).ledger + left.within slot.step = e.ledger + begun.within slot.step := by
  have hledger := ledger_become stands (congrArg (· + 0) own) inner
  rwa [Ledger.own_zero, zero_add, zero_add] at hledger

theorem ledger_kept (stands : e.slots[i]? = some slot)
    (own : (e.become i hs tr).marking.ids = e.marking.ids)
    (inner : tr.ledger = slot.transition.ledger) : (e.become i hs tr).ledger = e.ledger :=
  add_right_cancel (ledger_own stands (congrArg (· + 0) own) inner)

/-- Nets whose steps run the same are told apart by their own tokens only. -/
theorem ledger_of_slots (same : e'.slots.map (fun slot => (slot.step, slot.transition)) =
      e.slots.map fun slot => (slot.step, slot.transition)) {made : Multiset TokenId}
    (own : e'.marking.ids = e.marking.ids + made) : e'.ledger = e.ledger + .own made := by
  have hsteps := congrArg (List.map fun x : String × Transition => x.2.ledger.within x.1) same
  simp only [List.map_map, Function.comp_def] at hsteps
  rw [ledger_eq, ledger_eq e, hsteps, own, Ledger.own_add, add_right_comm]

theorem ledger_same (same : e'.slots.map (fun slot => (slot.step, slot.transition)) =
      e.slots.map fun slot => (slot.step, slot.transition)) (own : e'.marking = e.marking) :
    e'.ledger = e.ledger := by
  have hnone : e'.marking.ids = e.marking.ids + 0 := by rw [own, add_zero]
  rw [ledger_of_slots same hnone, Ledger.own_zero, add_zero]

theorem ledger_activate (e : Engine) (status : Status) :
    Engine.ledger { e.activate with status } = e.ledger :=
  ledger_same (by simp [activate, Function.comp_def]) (marking_activate e status)

theorem ledger_halt (e : Engine) (f : Fault) : (e.halt f).ledger = e.ledger :=
  ledger_same (by rw [slots_halt]) (marking_halt e f)

theorem ledger_entered (h : e.startPlace < e.holdings.length) (t : Token) :
    (e.entered t).ledger = e.ledger + .own {t.id} := by
  refine ledger_of_slots (by simp [entered, activate, Function.comp_def]) ?_
  rw [marking_entered h, Marking.ids, Multiset.map_cons, ← Multiset.singleton_add, add_comm]
  rfl

/-- A net that has just been built has no tokens. -/
theorem Built.ledger {fitter : Fitter} {plan : Plan} (h : Built fitter plan e) : e.ledger = 0 := by
  have hids : e.marking.ids = 0 := by
    have hwork := congrArg (Multiset.map (·.id)) h.work
    rwa [Engine.work, Multiset.map_map] at hwork
  rw [ledger_eq, hids, Ledger.own_zero, zero_add]
  refine List.sum_eq_zero fun l hl => ?_
  obtain ⟨slot, hs, rfl⟩ := List.mem_map.1 hl
  have hnone : slot.transition.ledger = 0 := by
    cases htr : slot.transition with
    | busy nest t child => exact absurd htr (h.vacant hs nest t child)
    | _ => rfl
  rw [hnone, Ledger.within_zero]

end Engine

end RecipeNet
