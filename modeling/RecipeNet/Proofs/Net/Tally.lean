import Mathlib.Data.List.Induction
import RecipeNet.Proofs.Net.Ending

/-!
What reports tell of the tasks of a net. A token comes into a task with the report that its
activity has begun, and whatever has begun in a nested net is gone once the step around it
has fired anew. What the reports do not tell is that a nested net has ended: then its step
runs no net at all.
-/

namespace RecipeNet

/-- An address leads through the nested plan of the step at another one. -/
def Around (outer path : List String) : Prop := outer <+: path ∧ outer ≠ path

instance (outer path : List String) : Decidable (Around outer path) :=
  inferInstanceAs (Decidable (_ ∧ _))

def Event.tally (path : List String) (held : List Token) : Event → List Token
  | .fired step => if Around step.path path then [] else held
  | .started step _ t => if step.path = path then held ++ [t] else held
  | .completed _ _ => held

/-- What is known after some reports of what the task at an address holds. -/
def tally (path : List String) (held : List Token) (events : List Event) : List Token :=
  events.foldl (Event.tally path) held

def Renews (path : List String) (events : List Event) : Prop :=
  ∃ outer, Around outer path ∧ .fired ⟨outer⟩ ∈ events

inductive Event.About (step : String) : Event → Prop
  | fired (path : List String) : About step (.fired ⟨step :: path⟩)
  | started (path : List String) (activity : String) (t : Token) :
    About step (.started ⟨step :: path⟩ activity t)

section

variable {path rest : List String} {step head : String} {held other : List Token}
  {events more : List Event}

theorem tally_append : tally path held (events ++ more) = tally path (tally path held events) more :=
  List.foldl_append

theorem around_cons : Around (head :: path) (head :: rest) ↔ Around path rest := by
  simp [Around]

theorem Renews.append_left (h : Renews path events) : Renews path (events ++ more) := by
  obtain ⟨outer, haround, hmem⟩ := h
  exact ⟨outer, haround, List.mem_append_left _ hmem⟩

theorem Renews.append_right (h : Renews path more) : Renews path (events ++ more) := by
  obtain ⟨outer, haround, hmem⟩ := h
  exact ⟨outer, haround, List.mem_append_right _ hmem⟩

/-- Once a step around has fired, it does not matter what was held before. -/
theorem Renews.tally_eq (h : Renews path events) (held other : List Token) :
    tally path held events = tally path other events := by
  obtain ⟨outer, haround, hmem⟩ := h
  obtain ⟨front, back, rfl⟩ := List.append_of_mem hmem
  have hnow : ∀ tokens, Event.tally path tokens (.fired ⟨outer⟩) = [] := fun _ => if_pos haround
  simp only [tally, List.foldl_append, List.foldl_cons, hnow]

/-- Reports about one step tell nothing of another one. -/
theorem tally_elsewhere (about : ∀ e ∈ events, Event.About step e) (hother : head ≠ step) :
    tally (head :: rest) held events = held := by
  induction events with
  | nil => rfl
  | cons e events ih =>
    have hfirst : Event.tally (head :: rest) held e = held := by
      cases about e List.mem_cons_self with
      | fired path =>
        refine if_neg fun haround => hother ?_
        exact (List.cons_prefix_cons.1 haround.1).1.symm
      | started path activity t => exact if_neg fun hsame => hother (List.cons.inj hsame).1.symm
    rw [tally, List.foldl_cons, hfirst]
    exact ih fun x hx => about x (List.mem_cons_of_mem _ hx)

/-- What a nested net reports is told of its step as well. -/
theorem tally_within (step : String) :
    tally (step :: path) held (events.filterMap (·.within step)) = tally path held events := by
  induction events generalizing held with
  | nil => rfl
  | cons e events ih =>
    cases e with
    | fired a =>
      simp only [tally, Event.within, List.filterMap_cons, List.foldl_cons, Event.tally,
        Address.within, around_cons]
      exact ih
    | started a activity t =>
      simp only [tally, Event.within, List.filterMap_cons, List.foldl_cons, Event.tally,
        Address.within, List.cons.injEq, true_and]
      exact ih
    | completed place t => exact ih

theorem Renews.within (h : Renews path events) :
    Renews (step :: path) (events.filterMap (·.within step)) := by
  obtain ⟨outer, haround, hmem⟩ := h
  exact ⟨step :: outer, around_cons.2 haround, List.mem_filterMap.2 ⟨_, hmem, rfl⟩⟩

theorem about_within : ∀ e ∈ events.filterMap (·.within step), Event.About step e := by
  intro e he
  obtain ⟨inner, -, hwithin⟩ := List.mem_filterMap.1 he
  cases inner with
  | fired a =>
    obtain rfl := Option.some.inj hwithin
    exact .fired a.path
  | started a activity t =>
    obtain rfl := Option.some.inj hwithin
    exact .started a.path activity t
  | completed place t => cases hwithin

end

/-- How what the task at an address holds follows from the reports: a net on the way does
not run, or the nets on the way have run on, or one of them is new. -/
inductive Traced (path : List String) (before : Option (List Token)) (events : List Event) :
    Option (List Token) → Prop
  | gone : Traced path before events none
  | kept (held : List Token) (known : before = some held) :
    Traced path before events (some (tally path held events))
  | renewed (renews : Renews path events) : Traced path before events (some (tally path [] events))

namespace Traced

variable {path : List String} {a b c : Option (List Token)} {events more : List Event}

theorem refl (path : List String) (a : Option (List Token)) : Traced path a [] a := by
  cases a with
  | none => exact .gone
  | some held => exact .kept held rfl

theorem trans (hab : Traced path a events b) (hbc : Traced path b more c) :
    Traced path a (events ++ more) c := by
  cases hbc with
  | gone => exact .gone
  | renewed renews =>
    rw [renews.tally_eq [] (tally path [] events), ← tally_append]
    exact .renewed renews.append_right
  | kept held known =>
    subst known
    generalize hb : some held = b at hab
    cases hab with
    | gone => cases hb
    | kept before known =>
      obtain rfl := Option.some.inj hb
      rw [← tally_append]
      exact .kept before known
    | renewed renews =>
      obtain rfl := Option.some.inj hb
      rw [← tally_append]
      exact .renewed renews.append_left

theorem silent (h : ∀ e ∈ events, e.Final) (a : Option (List Token)) : Traced path a events a := by
  have hnone : ∀ held, tally path held events = held := by
    intro held
    induction events with
    | nil => rfl
    | cons e events ih =>
      cases e with
      | completed place t => exact ih fun x hx => h x (List.mem_cons_of_mem _ hx)
      | fired | started => cases h _ List.mem_cons_self
  cases a with
  | none => exact .gone
  | some held =>
    have hkept : Traced path (some held) events _ := .kept held rfl
    rwa [hnone] at hkept

/-- What is told within a net is told around it. -/
theorem within (step : String) (h : Traced path a events b) :
    Traced (step :: path) a (events.filterMap (·.within step)) b := by
  cases h with
  | gone => exact .gone
  | kept held known =>
    rw [← tally_within step]
    exact .kept held known
  | renewed renews =>
    rw [← tally_within step]
    exact .renewed renews.within

end Traced

def Event.start? : Event → Option (List String × TokenId)
  | .started step _ t => some (step.path, t.id)
  | .fired _ | .completed _ _ => none

def starts (events : List Event) : List (List String × TokenId) := events.filterMap Event.start?

def copies (id : TokenId) (tokens : List Token) : Nat := tokens.countP (·.id == id)

/-- The activity of a token has begun at an address, and since then some events have been
reported. -/
def Began (events : List Event) (path : List String) (id : TokenId) (since : List Event) : Prop :=
  ∃ front activity t, events = front ++ .started ⟨path⟩ activity t :: since ∧ t.id = id

section

variable {path : List String} {id : TokenId} {held other : List Token} {events more since : List Event}

theorem starts_append : starts (events ++ more) = starts events ++ starts more :=
  List.filterMap_append

theorem Began.append (h : Began events path id since) : Began (events ++ more) path id (since ++ more) := by
  obtain ⟨front, activity, t, rfl, hid⟩ := h
  exact ⟨front, activity, t, by rw [List.append_assoc, List.cons_append], hid⟩

theorem began_of_mem (h : (path, id) ∈ starts events) : ∃ since, Began events path id since := by
  obtain ⟨e, he, hstart⟩ := List.mem_filterMap.1 h
  obtain ⟨front, since, rfl⟩ := List.append_of_mem he
  cases e with
  | started step activity t =>
    cases hstart
    exact ⟨since, front, activity, t, rfl, rfl⟩
  | fired | completed => cases hstart

theorem copies_append : copies id (held ++ other) = copies id held + copies id other :=
  List.countP_append

/-- As long as no step around fires, whatever begins at an address is held there. -/
theorem copies_tally (quiet : ¬ Renews path events) :
    copies id (tally path held events) = copies id held + (starts events).count (path, id) := by
  induction events generalizing held with
  | nil => rfl
  | cons e events ih =>
    have hrest : ¬ Renews path events := fun ⟨outer, haround, hmem⟩ =>
      quiet ⟨outer, haround, List.mem_cons_of_mem _ hmem⟩
    rw [tally, List.foldl_cons, ← tally, ih hrest]
    cases e with
    | completed place t => rfl
    | fired step =>
      have hother : ¬ Around step.path path := fun haround =>
        quiet ⟨step.path, haround, List.mem_cons_self⟩
      rw [Event.tally, if_neg hother]
      rfl
    | started step activity t =>
      have hstarts : starts (.started step activity t :: events) = (step.path, t.id) :: starts events :=
        rfl
      rw [hstarts, List.count_cons]
      by_cases hpath : step.path = path
      · rw [Event.tally, if_pos hpath, copies_append]
        simp only [copies, List.countP_cons, List.countP_nil, hpath, Prod.mk.injEq, beq_iff_eq, true_and]
        omega
      · rw [Event.tally, if_neg hpath]
        simp [hpath]

/-- What is known to be held is known of whatever has been held before. -/
theorem tally_subset (h : held ⊆ other) : tally path held events ⊆ tally path other events := by
  induction events generalizing held other with
  | nil => exact h
  | cons e events ih =>
    refine ih ?_
    cases e with
    | fired step =>
      simp only [Event.tally]
      split
      · exact List.Subset.refl _
      · exact h
    | started step activity t =>
      simp only [Event.tally]
      split
      · exact fun x hx => (List.mem_append.1 hx).elim (fun hold => List.mem_append_left _ (h hold))
          (List.mem_append_right _)
      · exact h
    | completed place t => exact h

theorem tally_concat {e : Event} :
    tally path held (events ++ [e]) = e.tally path (tally path held events) := tally_append

theorem not_renews_nil : ¬ Renews path [] := fun ⟨_, _, hmem⟩ => List.not_mem_nil hmem

/-- What is known to be held has begun since the steps around have fired. -/
theorem began_of_mem_tally {t : Token} (h : t ∈ tally path [] events) :
    ∃ since, Began events path t.id since ∧ ¬ Renews path since := by
  induction events using List.reverseRecOn with
  | nil => cases h
  | append_singleton events e ih =>
    rw [tally_concat] at h
    have hstill : t ∈ tally path [] events → (∀ outer, Around outer path → e ≠ .fired ⟨outer⟩) →
        ∃ since, Began (events ++ [e]) path t.id since ∧ ¬ Renews path since := by
      intro hold hother
      obtain ⟨since, hbegan, hquiet⟩ := ih hold
      refine ⟨since ++ [e], hbegan.append, ?_⟩
      rintro ⟨outer, haround, hmem⟩
      rcases List.mem_append.1 hmem with hbefore | hlast
      · exact hquiet ⟨outer, haround, hbefore⟩
      · exact hother outer haround (List.mem_singleton.1 hlast).symm
    cases e with
    | completed place u => exact hstill h nofun
    | fired step =>
      rw [Event.tally] at h
      split at h
      · cases h
      · rename_i hother
        exact hstill h fun outer haround hsame => hother (by cases hsame; exact haround)
    | started step activity u =>
      rw [Event.tally] at h
      split at h
      · rename_i hpath
        rcases List.mem_append.1 h with hold | hlast
        · exact hstill hold nofun
        · obtain rfl := List.mem_singleton.1 hlast
          subst hpath
          exact ⟨[], ⟨events, activity, t, rfl, rfl⟩, not_renews_nil⟩
      · exact hstill h nofun

/-- What has begun since the steps around have fired is known to be held. -/
theorem starts_le_copies (standing : ∀ since, Began events path id since → ¬ Renews path since) :
    (starts events).count (path, id) ≤ copies id (tally path [] events) := by
  induction events using List.reverseRecOn with
  | nil => exact Nat.le_refl _
  | append_singleton events e ih =>
    have hbefore := ih fun since hbegan hrenews => standing _ hbegan.append hrenews.append_left
    by_cases hrenews : Renews path [e]
    · -- whatever had begun by then would not stand
      have hnone : (path, id) ∉ starts events := fun hmem => by
        obtain ⟨since, hbegan⟩ := began_of_mem hmem
        exact standing _ hbegan.append hrenews.append_right
      obtain ⟨outer, haround, hmem⟩ := hrenews
      obtain rfl := List.mem_singleton.1 hmem
      have hsame : starts (events ++ [.fired ⟨outer⟩]) = starts events := by
        rw [starts_append]
        exact List.append_nil _
      rw [hsame, List.count_eq_zero.2 hnone]
      exact Nat.zero_le _
    · rw [tally_append, copies_tally hrenews, starts_append, List.count_append]
      exact Nat.add_le_add_right hbefore _

/-- What is held at an address, with what waits to be finished there, is no less than what is
known to have begun. -/
theorem Traced.counted {before : Option (List Token)} {waiting : Nat} {log : List Event}
    (h : Traced path before events (some held)) (begun : waiting ≤ (starts log).count (path, id))
    (counted : ∀ old, before = some old →
      copies id (tally path [] log) + waiting ≤ copies id old + (starts log).count (path, id)) :
    copies id (tally path [] (log ++ events)) + (waiting + (starts events).count (path, id)) ≤
      copies id held + (starts (log ++ events)).count (path, id) := by
  rw [tally_append, starts_append, List.count_append]
  by_cases hrenews : Renews path events
  · have hheld : held = tally path [] events := by
      generalize hafter : some held = after at h
      cases h with
      | gone => cases hafter
      | kept old known => exact (Option.some.inj hafter).trans (hrenews.tally_eq _ _)
      | renewed => exact Option.some.inj hafter
    rw [hheld, hrenews.tally_eq _ []]
    omega
  · generalize hafter : some held = after at h
    cases h with
    | gone => cases hafter
    | renewed renews => exact absurd renews hrenews
    | kept old known =>
      obtain rfl := Option.some.inj hafter
      have hcounted := counted old known
      rw [copies_tally hrenews, copies_tally hrenews]
      omega

/-- What is held has been known to be. -/
theorem Traced.known {before : Option (List Token)} {log : List Event}
    (h : Traced path before events (some held))
    (known : ∀ old, before = some old → old ⊆ tally path [] log) :
    held ⊆ tally path [] (log ++ events) := by
  rw [tally_append]
  generalize hafter : some held = after at h
  cases h with
  | gone => cases hafter
  | kept old hold =>
    obtain rfl := Option.some.inj hafter
    exact tally_subset (known old hold)
  | renewed renews =>
    obtain rfl := Option.some.inj hafter
    exact tally_subset (List.nil_subset _)

end

end RecipeNet
