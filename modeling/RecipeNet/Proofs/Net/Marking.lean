import RecipeNet.Proofs.Net.Order

/-!
Nets as token games. A marking counts the tokens in places and those that tasks
and nested plans hold; a move takes tokens from the inputs of one step and puts
tokens into its outputs. Every act of a net makes one move or none.
-/

namespace RecipeNet

theorem Token.siblings_range (t : Token) (ids : List TokenId) :
    (t.siblings ids).map (·.1) = List.range ids.length := by
  rw [siblings, List.map_map, List.range_eq_range']
  exact List.zipIdx_map_snd 0 ids

theorem Token.siblings_parent (t : Token) (ids : List TokenId) :
    ∀ x ∈ t.siblings ids, x.2.parent = some t := by
  intro x hx
  obtain ⟨y, -, rfl⟩ := List.mem_map.1 hx
  rfl

/-- Entries for a range of connectors stand for all of them, in order. -/
theorem places_of_range {connectors : List Nat} {entries found : List (Nat × Token)}
    (hrange : entries.map (·.1) = List.range connectors.length)
    (h : List.Forall₂ (fun e u => connectors[e.1]? = some u.1 ∧ u.2 = e.2) entries found) :
    found.map (·.1) = connectors := by
  have hsome : (entries.map (·.1)).map (connectors[·]?) = (found.map (·.1)).map some := by
    clear hrange
    induction h with
    | nil => rfl
    | cons hone _ ih =>
      simp only [List.map_cons, List.cons.injEq]
      exact ⟨hone.1, ih⟩
  rw [hrange] at hsome
  have hinj : (found.map (·.1)).map some = connectors.map some := by
    rw [← hsome]
    refine List.ext_getElem (by simp) fun k hk _ => ?_
    simp only [List.length_map, List.length_range] at hk
    simp [hk]
  exact List.map_injective_iff.2 (Option.some_injective _) hinj

/-- Where a token is: in a place, or with a step that has taken it. -/
inductive Spot where
  | place (p : Nat)
  | step (i : Nat)

abbrev Marking := Multiset (Spot × Token)

def Marking.ofPlaces (xs : Multiset (Nat × Token)) : Marking := xs.map fun x => (.place x.1, x.2)

def Marking.ofSteps (xs : Multiset (Nat × Token)) : Marking := xs.map fun x => (.step x.1, x.2)

def Transition.taken : Transition → List Token
  | .task _ held => held
  | .busy _ t _ => [t]
  | _ => []

theorem Transition.taken_subset (tr : Transition) : tr.taken ⊆ tr.tokens := by
  cases tr with
  | task | busy => exact List.Subset.refl _
  | _ => exact List.nil_subset _

def Engine.marking (e : Engine) : Marking :=
  .ofPlaces (spread Holding.tokens e.holdings) + .ofSteps (spread (·.transition.taken) e.slots)

structure Position where
  marking : Marking
  seen : Set TokenId

/-- One enabled step of a net. A firing is named by its step; a token that a task
or a nested plan gives back is no firing. -/
inductive Move (slots : List Slot) : Option String → Position → Position → Prop
  | pass {i p q output : Nat} {slot : Slot} {t : Token} {rest : Marking} {seen : Set TokenId}
      (stands : slots[i]? = some slot) (kind : slot.transition.outline = .pass output)
      (input : slot.inputs = [p]) (target : slot.outputs[output]? = some q) :
    Move slots (some slot.step) ⟨(.place p, t) ::ₘ rest, seen⟩ ⟨(.place q, t) ::ₘ rest, seen⟩
  | routed {i p q : Nat} {slot : Slot} {t : Token} {rest : Marking} {seen : Set TokenId}
      (stands : slots[i]? = some slot) (kind : ∃ rule, slot.transition.outline = .routed rule [])
      (input : p ∈ slot.inputs) (target : q ∈ slot.outputs) :
    Move slots (some slot.step) ⟨(.place p, t) ::ₘ rest, seen⟩ ⟨(.place q, t) ::ₘ rest, seen⟩
  | split {i p : Nat} {slot : Slot} {t : Token} {made : List (Nat × Token)} {rest : Marking}
      {seen : Set TokenId}
      (stands : slots[i]? = some slot) (kind : slot.transition.outline = .split)
      (input : slot.inputs = [p]) (targets : made.map (·.1) = slot.outputs)
      (siblings : ∀ x ∈ made, x.2.parent = some t) (distinct : (made.map (·.2.id)).Nodup)
      (fresh : ∀ x ∈ made, x.2.id ∉ seen) :
    Move slots (some slot.step) ⟨(.place p, t) ::ₘ rest, seen⟩
      ⟨.ofPlaces made + rest, seen ∪ {id | ∃ x ∈ made, x.2.id = id}⟩
  | join {i q : Nat} {slot : Slot} {t : Token} {taken : List (Nat × Token)}
      {rest : Marking} {seen : Set TokenId}
      (stands : slots[i]? = some slot) (kind : ∃ inputs, slot.transition.outline = .join inputs [])
      (each : taken.map (·.1) = slot.inputs) (siblings : ∀ x ∈ taken, x.2.parent = some t)
      (distinct : (taken.map (·.2.id)).Nodup) (target : slot.outputs = [q]) :
    Move slots (some slot.step) ⟨.ofPlaces taken + rest, seen⟩ ⟨(.place q, t) ::ₘ rest, seen⟩
  | start {i p : Nat} {slot : Slot} {t : Token} {rest : Marking} {seen : Set TokenId}
      (stands : slots[i]? = some slot)
      (kind : (∃ activity, slot.transition.outline = .task activity []) ∨
        ∃ nest, slot.transition.outline = .idle nest)
      (input : slot.inputs = [p]) :
    Move slots (some slot.step) ⟨(.place p, t) ::ₘ rest, seen⟩ ⟨(.step i, t) ::ₘ rest, seen⟩
  | finish {i q : Nat} {slot : Slot} {t : Token} {rest : Marking} {seen : Set TokenId}
      (stands : slots[i]? = some slot)
      (kind : (∃ activity, slot.transition.outline = .task activity []) ∨
        ∃ nest, slot.transition.outline = .idle nest)
      (target : q ∈ slot.outputs) :
    Move slots none ⟨(.step i, t) ::ₘ rest, seen⟩ ⟨(.place q, t) ::ₘ rest, seen⟩

/-- Moves one after the other, with the steps that fire. Identities may be drawn
elsewhere in the meantime. -/
inductive Moves (slots : List Slot) : List String → Position → Position → Prop
  | nil (a : Position) : Moves slots [] a a
  | learn {marking : Marking} {seen more : Set TokenId} {fired : List String} {c : Position}
      (grows : seen ⊆ more) (rest : Moves slots fired ⟨marking, more⟩ c) :
    Moves slots fired ⟨marking, seen⟩ c
  | cons {label : Option String} {fired : List String} {a b c : Position}
      (move : Move slots label a b) (rest : Moves slots fired b c) :
    Moves slots (label.toList ++ fired) a c

theorem Moves.trans {slots : List Slot} {first more : List String} {a b c : Position}
    (hab : Moves slots first a b) (hbc : Moves slots more b c) :
    Moves slots (first ++ more) a c := by
  induction hab with
  | nil => exact hbc
  | learn grows _ ih => exact .learn grows (ih hbc)
  | cons move _ ih =>
    rw [List.append_assoc]
    exact .cons move (ih hbc)

theorem Moves.of_learn {slots : List Slot} {marking : Marking} {seen more : Set TokenId}
    (h : seen ⊆ more) : Moves slots [] ⟨marking, seen⟩ ⟨marking, more⟩ :=
  .learn h (.nil _)

theorem Moves.of_move {slots : List Slot} {label : Option String} {a : Position}
    {marking : Marking} {seen more : Set TokenId} (h : Move slots label a ⟨marking, seen⟩)
    (grows : seen ⊆ more) : Moves slots label.toList a ⟨marking, more⟩ := by
  have hone := Moves.cons h (.of_learn grows)
  rwa [List.append_nil] at hone

def Event.own? : Event → Option String
  | .fired ⟨[step]⟩ => some step
  | _ => none

namespace Marking

theorem ofPlaces_add (xs ys : Multiset (Nat × Token)) :
    ofPlaces (xs + ys) = ofPlaces xs + ofPlaces ys :=
  Multiset.map_add _ _ _

theorem ofPlaces_cons (p : Nat) (t : Token) (xs : Multiset (Nat × Token)) :
    ofPlaces ((p, t) ::ₘ xs) = (.place p, t) ::ₘ ofPlaces xs :=
  Multiset.map_cons _ _ _

theorem ofSteps_cons (i : Nat) (t : Token) (xs : Multiset (Nat × Token)) :
    ofSteps ((i, t) ::ₘ xs) = (.step i, t) ::ₘ ofSteps xs :=
  Multiset.map_cons _ _ _

end Marking

namespace Engine

open Marking (ofPlaces ofSteps ofPlaces_cons ofSteps_cons)

variable {e : Engine} {i : Nat} {slot : Slot} {hs : List Holding} {tr : Transition} {t : Token}

theorem marking_halt (e : Engine) (f : Fault) : (e.halt f).marking = e.marking := by
  unfold marking
  rw [slots_halt, holdings_halt]

/-- What the steps hold after one of them has changed. -/
theorem spread_become (hi : e.slots[i]? = some slot) (hs : List Holding) (tr : Transition) :
    spread (·.transition.taken) (e.become i hs tr).slots +
        ((slot.transition.taken.map (i, ·) : List _) : Multiset (Nat × Token)) =
      spread (·.transition.taken) e.slots + ((tr.taken.map (i, ·) : List _) : Multiset _) :=
  spread_modify (fun s : Slot => s.transition.taken) (fun s => { s with transition := tr }) hi

theorem marking_same (hi : e.slots[i]? = some slot) (hs : List Holding)
    (htr : tr.taken = slot.transition.taken) : (e.become i hs tr).marking =
      ofPlaces (spread Holding.tokens hs) + ofSteps (spread (·.transition.taken) e.slots) := by
  have hspread := spread_become hi hs tr
  rw [htr] at hspread
  unfold marking
  rw [add_right_cancel hspread]
  rfl

theorem marking_gain (hi : e.slots[i]? = some slot) (hs : List Holding)
    (htr : tr.taken.Perm (t :: slot.transition.taken)) : (e.become i hs tr).marking =
      (.step i, t) ::ₘ (ofPlaces (spread Holding.tokens hs) +
        ofSteps (spread (·.transition.taken) e.slots)) := by
  have hspread := spread_become hi hs tr
  have hmap : ((tr.taken.map (i, ·) : List _) : Multiset (Nat × Token)) =
      (i, t) ::ₘ ((slot.transition.taken.map (i, ·) : List _) : Multiset _) :=
    Multiset.coe_eq_coe.2 (htr.map _)
  rw [hmap, Multiset.add_cons, ← Multiset.cons_add] at hspread
  unfold marking
  rw [add_right_cancel hspread, ofSteps_cons, Multiset.add_cons]
  rfl

theorem marking_loss (hi : e.slots[i]? = some slot) (hs : List Holding)
    (htr : slot.transition.taken.Perm (t :: tr.taken)) : ∃ held,
      ofSteps (spread (·.transition.taken) e.slots) = (.step i, t) ::ₘ held ∧
      (e.become i hs tr).marking = ofPlaces (spread Holding.tokens hs) + held := by
  have hspread := spread_become hi hs tr
  have hmap : ((slot.transition.taken.map (i, ·) : List _) : Multiset (Nat × Token)) =
      (i, t) ::ₘ ((tr.taken.map (i, ·) : List _) : Multiset _) :=
    Multiset.coe_eq_coe.2 (htr.map _)
  rw [hmap, Multiset.add_cons, ← Multiset.cons_add] at hspread
  refine ⟨_, ?_, rfl⟩
  rw [← add_right_cancel hspread, ofSteps_cons]

theorem marking_activate (e : Engine) (status : Status) :
    Engine.marking { e.activate with status } = e.marking := by
  have hslots : spread (·.transition.taken) e.activate.slots =
      spread (·.transition.taken) e.slots := by
    simp only [activate, spread, spreadFrom, List.zipIdx_map, List.flatMap_map]
    rfl
  unfold marking
  rw [hslots]
  rfl

theorem marking_entered (h : e.startPlace < e.holdings.length) (t : Token) :
    (e.entered t).marking = (.place e.startPlace, t) ::ₘ e.marking := by
  have hplaces : spread Holding.tokens (e.entered t).holdings =
      (e.startPlace, t) ::ₘ spread Holding.tokens e.holdings := spread_add t h
  have hsteps : Engine.marking { e.activate with status := .running } =
      ofPlaces (spread Holding.tokens e.holdings) +
        ofSteps (spread (·.transition.taken) (e.entered t).slots) := rfl
  rw [← marking_activate e .running, hsteps, ← Multiset.cons_add, ← ofPlaces_cons, ← hplaces]
  rfl

def work (e : Engine) : Multiset Token := e.marking.map (·.2)

/-- No token is held twice. -/
def Exclusive (e : Engine) : Prop := (e.work.map (·.id)).Nodup

/-- Tokens that are taken with their positions, without them. -/
theorem spread_tokens {α : Type} (f : α → List Token) (xs : List α) :
    (spread f xs).map (·.2) = (xs.flatMap f : List Token) := by
  have hall : ∀ (xs : List α) (k : Nat), (spreadFrom f k xs).map (·.2) = (xs.flatMap f : List _) := by
    intro xs
    induction xs with
    | nil => exact fun _ => rfl
    | cons x rest ih =>
      intro k
      rw [spreadFrom_cons, Multiset.map_add, ih, List.flatMap_cons, ← Multiset.coe_add,
        Multiset.map_coe, List.map_map]
      exact congrArg (· + _) (congrArg _ (List.map_id _))
  exact hall xs 0

theorem work_eq (e : Engine) : e.work =
    (e.holdings.flatMap (·.tokens) ++ e.slots.flatMap (·.transition.taken) : List Token) := by
  unfold work marking
  rw [Multiset.map_add, ofPlaces, ofSteps, Multiset.map_map, Multiset.map_map]
  exact congrArg₂ (· + ·) (spread_tokens Holding.tokens e.holdings)
    (spread_tokens (fun slot : Slot => slot.transition.taken) e.slots)

theorem Built.work {fitter : Fitter} {plan : Plan} (h : Built fitter plan e) : e.work = 0 := by
  have hplaces : e.holdings.flatMap (·.tokens) = [] :=
    List.flatMap_eq_nil_iff.2 fun hold hmem => h.empty hold hmem
  have hsteps : e.slots.flatMap (·.transition.taken) = [] :=
    List.flatMap_eq_nil_iff.2 fun slot hs =>
      List.subset_nil.1 ((h.fresh hs).2.2 ▸ slot.transition.taken_subset)
  rw [work_eq, hplaces, hsteps]
  rfl

end Engine

/-- A report of a firing names a step. -/
theorem Act.addressed {sc sc' : Scene} {events : List Event} (h : Act sc events sc') :
    ∀ a, .fired a ∈ events → a.path ≠ [] := by
  induction h with
  | @fired sc i slot firing r r' running stands fires =>
    intro a ha
    rcases List.mem_cons.1 ha with hfirst | hnote
    · cases hfirst
      exact List.cons_ne_nil _ _
    · generalize slot.transition = tr at fires
      cases fires with
      | begin => cases List.mem_singleton.1 hnote
      | pass => cases hnote
      | routed => cases hnote
      | split => cases hnote
      | join => cases hnote
      | launch => cases hnote
  | announced =>
    intro a ha
    obtain ⟨t, -, ht⟩ := List.mem_map.1 ha
    cases ht
  | ended =>
    intro a ha
    cases List.mem_singleton.1 ha
  | inside running stands busy act ih =>
    intro a ha
    obtain ⟨e, he, hwithin⟩ := List.mem_filterMap.1 ha
    cases e with
    | fired b =>
      cases hwithin
      exact List.cons_ne_nil _ _
    | started => cases hwithin
    | completed => cases hwithin
  | _ => exact fun a ha => by cases ha

/-- What is reported from within is no firing of the net itself. -/
theorem own_within {events : List Event} {outer : String}
    (h : ∀ a, .fired a ∈ events → a.path ≠ []) :
    (events.filterMap (·.within outer)).filterMap Event.own? = [] := by
  refine List.filterMap_eq_nil_iff.2 fun e he => ?_
  obtain ⟨inner, hinner, hwithin⟩ := List.mem_filterMap.1 he
  cases inner with
  | fired a =>
    cases hwithin
    have hpath := h a hinner
    obtain ⟨path⟩ := a
    cases path with
    | nil => exact absurd rfl hpath
    | cons => rfl
  | started =>
    cases hwithin
    rfl
  | completed => cases hwithin

end RecipeNet
