import RecipeNet.Net.Cascade
import RecipeNet.Proofs.Net.Firing

/-!
The outline of a net: its plan, places and steps without tokens and history. No
operation changes it, so what building a net has established about positions and
connectors holds for as long as the net lives, and likewise for the nets that
run within it.
-/

namespace RecipeNet

/-- A transition without what it has taken in or noted. -/
def Transition.outline : Transition → Transition
  | .pass output => .pass output
  | .split => .split
  | .join inputs _ => .join inputs []
  | .task activity _ => .task activity []
  | .routed rule _ => .routed rule []
  | .idle nest | .busy nest _ _ => .idle nest

def Slot.outline (slot : Slot) : Slot :=
  { slot with phase := .initialized, transition := slot.transition.outline }

theorem Transition.outline_ofFitting (own : Fitter) (fitting : Fitting) :
    (ofFitting own fitting).outline = ofFitting own fitting := by
  cases fitting <;> rfl

theorem Transition.outline_outline (tr : Transition) : tr.outline.outline = tr.outline := by
  cases tr <;> rfl

namespace Engine

def outline (e : Engine) : Engine :=
  { e with
    status := .created
    holdings := e.holdings.map fun h => .new h.place
    slots := e.slots.map Slot.outline
    completion := none
    haltedBy := none }

/-- The outline of a net has the outlines of its steps. -/
theorem outline_at {e : Engine} {i : Nat} {slot : Slot} (h : e.slots[i]? = some slot) :
    e.outline.slots[i]? = some slot.outline := by
  change (e.slots.map Slot.outline)[i]? = _
  rw [List.getElem?_map, h]
  rfl

/-- The net with new contents of its places and a new transition of one step. -/
def become (e : Engine) (i : Nat) (holdings : List Holding) (tr : Transition) : Engine :=
  { e with holdings, slots := e.slots.modify i fun slot => { slot with transition := tr } }

theorem become_become (e : Engine) (i : Nat) (hs hs' : List Holding) (tr tr' : Transition) :
    (e.become i hs tr).become i hs' tr' = e.become i hs' tr' := by
  simp only [become, List.modify_modify_eq]
  rfl

theorem become_self {e : Engine} {i : Nat} {slot : Slot} (hi : e.slots[i]? = some slot) :
    e.become i e.holdings slot.transition = e := by
  have hsame : (e.slots.modify i fun s => { s with transition := slot.transition }) = e.slots := by
    apply List.ext_getElem?
    intro j
    rw [List.getElem?_modify]
    by_cases hij : i = j
    · subst hij
      cases slot
      simp [hi]
    · simp [hij]
  cases e
  simp only [become, hsame]

theorem become_slot {e : Engine} {i : Nat} {slot : Slot} (hs : List Holding) (tr : Transition)
    (hi : e.slots[i]? = some slot) :
    (e.become i hs tr).slots[i]? = some { slot with transition := tr } := by
  simp [become, hi]

theorem become_slot_ne {e : Engine} {i j : Nat} (hs : List Holding) (tr : Transition)
    (hij : i ≠ j) : (e.become i hs tr).slots[j]? = e.slots[j]? := by
  simp [become, hij]

theorem mem_become {e : Engine} {i : Nat} {hs : List Holding} {tr : Transition} {slot : Slot}
    (h : slot ∈ (e.become i hs tr).slots) :
    slot ∈ e.slots ∨ ∃ old, e.slots[i]? = some old ∧ slot = { old with transition := tr } := by
  obtain ⟨j, hj⟩ := List.mem_iff_getElem?.1 h
  by_cases hij : i = j
  · subst hij
    cases hold : e.slots[i]? with
    | none => simp [become, hold] at hj
    | some old => exact .inr ⟨old, rfl, by simpa [become_slot hs tr hold] using hj.symm⟩
  · rw [become_slot_ne hs tr hij] at hj
    exact .inl (List.mem_of_getElem? hj)

/-- Nets with the same places and the same steps are alike. -/
theorem outline_of_parts {e e' : Engine} (hplaces : e'.holdings.map (·.place) = e.holdings.map (·.place))
    (hslots : e'.slots.map Slot.outline = e.slots.map Slot.outline) (hplan : e'.plan = e.plan)
    (hprint : e'.fingerprint = e.fingerprint) : e'.outline = e.outline := by
  have hholds := congrArg (List.map Holding.new) hplaces
  simp only [List.map_map] at hholds
  simp only [outline, hslots, hplan, hprint]
  exact congrArg (fun hs : List Holding => (⟨e.plan, e.fingerprint, .created, hs,
    e.slots.map Slot.outline, none, none⟩ : Engine)) hholds

theorem outline_become {e : Engine} {i : Nat} {slot : Slot} {hs : List Holding} {tr : Transition}
    (hi : e.slots[i]? = some slot) (hplaces : hs.map (·.place) = e.holdings.map (·.place))
    (htr : tr.outline = slot.transition.outline) : (e.become i hs tr).outline = e.outline := by
  have hslots : (e.become i hs tr).slots.map Slot.outline = e.slots.map Slot.outline := by
    apply List.ext_getElem?
    intro j
    rw [List.getElem?_map, List.getElem?_map]
    by_cases hij : i = j
    · subst hij
      rw [become_slot hs tr hi, hi]
      simp [Slot.outline, htr]
    · rw [become_slot_ne hs tr hij]
  exact outline_of_parts hplaces hslots rfl rfl

/-- A property of a net and of all nets that run within it. -/
inductive Throughout (P : Engine → Prop) : Engine → Prop
  | intro {e : Engine} (here : P e)
      (inside : ∀ slot ∈ e.slots, ∀ nest t child,
        slot.transition = .busy nest t child → Throughout P child) : Throughout P e

variable {P Q : Engine → Prop}

/-- A net within a net is smaller. -/
theorem child_lt {e child : Engine} {slot : Slot} (hs : slot ∈ e.slots) {nest : Nest} {t : Token}
    (ht : slot.transition = .busy nest t child) : sizeOf child < sizeOf e := by
  obtain ⟨plan, fingerprint, status, holdings, slots, completion, haltedBy⟩ := e
  obtain ⟨step, inputs, outputs, phase, tr⟩ := slot
  have hlt := List.sizeOf_lt_of_mem hs
  dsimp only at ht
  subst ht
  simp only [Slot.mk.sizeOf_spec, Transition.busy.sizeOf_spec] at hlt
  simp only [Engine.mk.sizeOf_spec]
  omega

theorem throughout_of_forall (h : ∀ e, P e) (e : Engine) : e.Throughout P :=
  .intro (h e) fun _ hs _ _ child ht =>
    have : sizeOf child < sizeOf e := child_lt hs ht
    throughout_of_forall h child
termination_by sizeOf e

theorem Throughout.here {e : Engine} (h : e.Throughout P) : P e := by
  cases h with
  | intro here _ => exact here

theorem Throughout.child {e : Engine} (h : e.Throughout P) {slot : Slot} (hs : slot ∈ e.slots)
    {nest : Nest} {t : Token} {child : Engine} (ht : slot.transition = .busy nest t child) :
    child.Throughout P := by
  cases h with
  | intro _ inside => exact inside slot hs nest t child ht

theorem Throughout.imp (hPQ : ∀ e, P e → Q e) {e : Engine} (h : e.Throughout P) :
    e.Throughout Q := by
  induction h with
  | intro here _ ih => exact .intro (hPQ _ here) ih

theorem Throughout.and {e : Engine} (hP : e.Throughout P) (hQ : e.Throughout Q) :
    e.Throughout fun e => P e ∧ Q e := by
  induction hP with
  | intro here _ ih =>
    exact .intro ⟨here, hQ.here⟩ fun slot hs nest t child ht =>
      ih slot hs nest t child ht (hQ.child hs ht)

/-- What holds in the nets within does so as long as the steps run the same. -/
theorem Throughout.of_slots {e e' : Engine} (h : e.Throughout P) (here : P e')
    (same : ∀ slot ∈ e'.slots, ∃ old ∈ e.slots, slot.transition = old.transition) :
    e'.Throughout P := by
  refine .intro here fun slot hs nest t child busy => ?_
  obtain ⟨old, hold, htr⟩ := same slot hs
  exact h.child hold (htr ▸ busy)

theorem Throughout.become {e : Engine} {i : Nat} {hs : List Holding} {tr : Transition}
    (h : e.Throughout P) (here : P (e.become i hs tr))
    (inside : ∀ nest t child, tr = .busy nest t child → child.Throughout P) :
    (e.become i hs tr).Throughout P := by
  refine .intro here fun slot hslot nest t child busy => ?_
  rcases mem_become hslot with hold | ⟨old, -, rfl⟩
  · exact h.child hold busy
  · exact inside nest t child busy

end Engine
end RecipeNet
