import RecipeNet.Proofs.Net.Lore

/-!
Nets that are awake. A running net owes no step anything: what an eager step
could take from its inputs has been offered to it or stands in the queue of
notices, and no token lies in a terminal place. Tokens are counted by place and
identity, since a notice names the token that came but the step takes the first
one of that identity.
-/

namespace RecipeNet

/-- How often each identity is held in each place. -/
def stock (hs : List Holding) : Multiset (Nat × TokenId) :=
  (spread Holding.tokens hs).map fun x => (x.1, x.2.id)

def entries (xs : List (Nat × Token)) : Multiset (Nat × TokenId) :=
  (xs.map fun x => (x.1, x.2.id) : List (Nat × TokenId))

def marks (queue : List Engine.Notice) : Multiset (Nat × Nat × TokenId) :=
  (queue.map fun n => (n.slot, n.input, n.token.id) : List (Nat × Nat × TokenId))

theorem entries_append (xs ys : List (Nat × Token)) :
    entries (xs ++ ys) = entries xs + entries ys := by
  simp only [entries, List.map_append, Multiset.coe_add]

theorem marks_append (xs ys : List Engine.Notice) : marks (xs ++ ys) = marks xs + marks ys := by
  simp only [marks, List.map_append, Multiset.coe_add]

theorem marks_cons (n : Engine.Notice) (queue : List Engine.Notice) :
    marks (n :: queue) = (n.slot, n.input, n.token.id) ::ₘ marks queue := rfl

theorem stock_of_spread {hs hs' : List Holding} {removed placed : List (Nat × Token)}
    (h : spread Holding.tokens hs' + (removed : Multiset _) =
      spread Holding.tokens hs + (placed : Multiset _)) :
    stock hs' + entries removed = stock hs + entries placed := by
  have hmap := congrArg (Multiset.map fun x : Nat × Token => (x.1, x.2.id)) h
  rw [Multiset.map_add, Multiset.map_add] at hmap
  exact hmap

theorem mem_stock {hs : List Holding} {p : Nat} {id : TokenId} :
    (p, id) ∈ stock hs ↔ ∃ h, hs[p]? = some h ∧ ∃ t ∈ h.tokens, t.id = id := by
  simp only [stock, Multiset.mem_map, Prod.mk.injEq]
  constructor
  · rintro ⟨⟨q, t⟩, hmem, rfl, rfl⟩
    obtain ⟨h, hat, ht⟩ := mem_spread.1 hmem
    exact ⟨h, hat, t, ht, rfl⟩
  · rintro ⟨h, hat, t, ht, rfl⟩
    exact ⟨(p, t), mem_spread.2 ⟨h, hat, ht⟩, rfl, rfl⟩

theorem stock_add (hs : List Holding) (p : Nat) (t : Token) (x : Nat × TokenId) :
    (stock (hs.modify p (·.add t))).count x ≤ (stock hs).count x + (entries [(p, t)]).count x := by
  cases hat : hs[p]? with
  | none =>
    have hlen : hs.length ≤ p := List.getElem?_eq_none_iff.1 hat
    rw [List.modify_eq_self hlen]
    exact Nat.le_add_right _ _
  | some h =>
    have hone := spread_modify Holding.tokens (·.add t) hat
    have hmade : (((h.add t).tokens.map (p, ·) : List _) : Multiset (Nat × Token)) =
        ((h.tokens.map (p, ·) : List _) : Multiset _) + (([(p, t)] : List _) : Multiset _) := by
      rw [Multiset.coe_add, Holding.add, List.map_append]
      rfl
    rw [hmade, add_comm ((h.tokens.map (p, ·) : List _) : Multiset (Nat × Token)),
      ← add_assoc] at hone
    have hspread := add_right_cancel hone
    have hstock : stock (hs.modify p (·.add t)) + entries [] = stock hs + entries [(p, t)] :=
      stock_of_spread (by simpa using hspread)
    have hcount := congrArg (Multiset.count x) hstock
    rw [Multiset.count_add, Multiset.count_add] at hcount
    omega

/-- Whether a step takes whatever it is offered. -/
def Transition.eager : Transition → Bool
  | .join _ _ | .busy _ _ _ => false
  | _ => true

namespace Engine

/-- A running net that serves its steps: tokens that they could take are in the
queue or owed, except for the steps at `skip`, which are at work. -/
structure Brisk (skip : List Nat) (owed : List (Nat × Token)) (queue : List Notice) (e : Engine) :
    Prop where
  running : e.status = .running
  active : ∀ slot ∈ e.slots, slot.phase = .active
  completion : e.completion = none
  haltedBy : e.haltedBy = none
  unended : ∀ p h, e.holdings[p]? = some h → h.isTerminal = true → ∀ id,
    (stock e.holdings).count (p, id) ≤ (entries owed).count (p, id)
  served : ∀ i slot, i ∉ skip → e.slots[i]? = some slot → slot.transition.eager = true →
    ∀ k p, slot.inputs[k]? = some p → ∀ id,
      (stock e.holdings).count (p, id) ≤
        (marks queue).count (i, k, id) + (entries owed).count (p, id)

structure Drowsy (e : Engine) : Prop where
  paused : e.status = .paused
  phases : ∀ slot ∈ e.slots, slot.phase = .paused
  completion : e.completion = none
  haltedBy : e.haltedBy = none

/-- A running net at rest, at every depth. -/
def Awake (e : Engine) : Prop := e.Throughout (Brisk [] [] [])

def Asleep (e : Engine) : Prop := e.Throughout Drowsy

/-- A running net amid a cascade. The nets within are awake, but for those of
the steps at `asleep`; nothing is said of the steps at `skip`. -/
structure Alert (skip asleep : List Nat) (owed : List (Nat × Token)) (queue : List Notice)
    (e : Engine) : Prop where
  brisk : e.Brisk skip owed queue
  nested : ∀ i slot nest t child, i ∉ skip → e.slots[i]? = some slot →
    slot.transition = .busy nest t child → if i ∈ asleep then child.Asleep else child.Awake

variable {e : Engine} {skip asleep : List Nat} {owed made : List (Nat × Token)}
  {queue : List Notice} {i : Nat}

theorem Awake.not_completed (h : e.Awake) : e.status ≠ .completed := fun hcompleted => by
  cases h.here.running.symm.trans hcompleted

theorem Asleep.not_completed (h : e.Asleep) : e.status ≠ .completed := fun hcompleted => by
  cases h.here.paused.symm.trans hcompleted

theorem Awake.alert (h : e.Awake) : e.Alert [] [] [] [] :=
  ⟨h.here, fun i slot nest t child _ hi ht => by
    rw [if_neg List.not_mem_nil]
    exact h.child (List.mem_of_getElem? hi) ht⟩

theorem Alert.awake (h : e.Alert [] [] [] []) : e.Awake := by
  refine .intro h.brisk fun slot hs nest t child ht => ?_
  obtain ⟨i, hi⟩ := List.mem_iff_getElem?.1 hs
  have hawake := h.nested i slot nest t child List.not_mem_nil hi ht
  rw [if_neg List.not_mem_nil] at hawake
  exact hawake

/-- Attending to the first notice, whose step comes to be at work. -/
theorem Alert.attend {n : Notice} (h : e.Alert [] asleep owed (n :: queue)) :
    e.Alert [n.slot] asleep owed queue := by
  refine ⟨{ h.brisk with served := ?_ }, fun j slot nest t child _ =>
    h.nested j slot nest t child (by simp)⟩
  intro j slot hj hat heager k p hk id
  have hserved := h.brisk.served j slot (by simp) hat heager k p hk id
  have hother : (j, k, id) ≠ (n.slot, n.input, n.token.id) := fun heq =>
    hj (List.mem_singleton.2 (congrArg Prod.fst heq))
  rw [marks_cons, Multiset.count_cons_of_ne hother] at hserved
  exact hserved

/-- A notice that concerns no step can be dropped. -/
theorem Alert.drop {n : Notice} (h : e.Alert [] asleep owed (n :: queue))
    (hnone : e.slots[n.slot]? = none) : e.Alert [] asleep owed queue := by
  have hattend := h.attend
  refine ⟨{ h.brisk with served := ?_ }, h.nested⟩
  intro j slot _ hat
  have hj : j ∉ [n.slot] := by
    intro hmem
    rw [List.mem_singleton.1 hmem, hnone] at hat
    cases hat
  exact hattend.brisk.served j slot hj hat

/-- The work of a step concerns the others only through what it puts into
places, and that is owed to them. -/
theorem Alert.work (h : e.Alert [i] asleep owed queue) {hs : List Holding} (tr : Transition)
    (places : hs.map (·.place) = e.holdings.map (·.place))
    (grows : ∀ x, (stock hs).count x ≤ (stock e.holdings).count x + (entries made).count x) :
    (e.become i hs tr).Alert [i] asleep (owed ++ made) queue := by
  refine ⟨⟨h.brisk.running, ?_, h.brisk.completion, h.brisk.haltedBy, ?_, ?_⟩, ?_⟩
  · intro slot hslot
    rcases mem_become hslot with hold | ⟨old, hat, rfl⟩
    · exact h.brisk.active slot hold
    · exact h.brisk.active old (List.mem_of_getElem? hat)
  · intro p hold hat hterminal id
    have hplace : (e.holdings.map (·.place))[p]? = some hold.place := by
      rw [← places, List.getElem?_map]
      exact congrArg (Option.map (·.place)) hat
    rw [List.getElem?_map] at hplace
    obtain ⟨old, holdat, holdplace⟩ := Option.map_eq_some_iff.1 hplace
    have hterminal' : old.isTerminal = true := by
      rw [Holding.isTerminal, holdplace]
      exact hterminal
    have hbound := h.brisk.unended p old holdat hterminal' id
    have hgrows := grows (p, id)
    rw [entries_append, Multiset.count_add]
    change (stock hs).count (p, id) ≤ _
    omega
  · intro j slot hj hat heager k p hk id
    have hij : i ≠ j := fun heq => hj (List.mem_singleton.2 heq.symm)
    rw [become_slot_ne hs tr hij] at hat
    have hbound := h.brisk.served j slot hj hat heager k p hk id
    have hgrows := grows (p, id)
    rw [entries_append, Multiset.count_add]
    change (stock hs).count (p, id) ≤ _
    omega
  · intro j slot nest t child hj hat ht
    have hij : i ≠ j := fun heq => hj (List.mem_singleton.2 heq.symm)
    rw [become_slot_ne hs tr hij] at hat
    exact h.nested j slot nest t child hj hat ht

/-- A step is done when it has been served and the net that it runs is awake. -/
theorem Alert.finish (h : e.Alert [i] asleep owed queue) {slot : Slot}
    (hi : e.slots[i]? = some slot)
    (served : slot.transition.eager = true → ∀ k p, slot.inputs[k]? = some p → ∀ id,
      (stock e.holdings).count (p, id) ≤
        (marks queue).count (i, k, id) + (entries owed).count (p, id))
    (nested : ∀ nest t child, slot.transition = .busy nest t child →
      if i ∈ asleep then child.Asleep else child.Awake) : e.Alert [] asleep owed queue := by
  refine ⟨{ h.brisk with served := ?_ }, ?_⟩
  · intro j slot' _ hat
    by_cases hij : j = i
    · subst hij
      obtain rfl : slot = slot' := Option.some.inj (hi.symm.trans hat)
      exact served
    · exact h.brisk.served j slot' (by simpa using hij) hat
  · intro j slot' nest t child _ hat ht
    by_cases hij : j = i
    · subst hij
      obtain rfl : slot = slot' := Option.some.inj (hi.symm.trans hat)
      exact nested nest t child ht
    · exact h.nested j slot' nest t child (by simpa using hij) hat ht

end Engine
end RecipeNet
