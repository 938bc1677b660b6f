import RecipeNet.Proofs.Net.Marking
import RecipeNet.Proofs.Snapshot.Restoring

/-!
What pausing leaves behind. A net can be paused if the nets within can, whatever
it holds: only statuses and phases change, and the snapshot records the places
and steps one by one. A net that cannot be paused may be paused in part.
-/

namespace RecipeNet

open TokenTable (registerAll)

namespace Transition

variable {now : Timestamp} {tr : Transition}

def hushed (now : Timestamp) : Transition → Transition
  | .busy nest t child => .busy nest t (child.pause now).1
  | tr => tr

def state? (now : Timestamp) : Transition → Option StepState
  | .busy _ t child => (child.pause now).2.toOption.map (.nested t.id)
  | .join _ pending => if pending.isEmpty then none else some (.join (pending.map (·.record)))
  | .task _ held => if held.isEmpty then none else some (.task (held.map (·.id)))
  | _ => none

theorem tokens_hushed (now : Timestamp) (tr : Transition) : (tr.hushed now).tokens = tr.tokens := by
  cases tr <;> rfl

theorem taken_hushed (now : Timestamp) (tr : Transition) : (tr.hushed now).taken = tr.taken := by
  cases tr <;> rfl

theorem outline_hushed (now : Timestamp) (tr : Transition) :
    (tr.hushed now).outline = tr.outline := by
  cases tr <;> rfl

theorem hushed_of_vacant (h : ∀ nest t child, tr ≠ .busy nest t child) : tr.hushed now = tr := by
  cases tr with
  | busy nest t child => exact absurd rfl (h nest t child)
  | _ => rfl

/-- Only a net within may come out changed. -/
theorem hushed_busy {nest : Nest} {t : Token} {child : Engine}
    (h : tr.hushed now = .busy nest t child) :
    ∃ before, tr = .busy nest t before ∧ child = (before.pause now).1 := by
  cases tr with
  | busy nest' t' before =>
    cases h
    exact ⟨before, rfl, rfl⟩
  | _ => cases h

theorem capture_eq (h : ∀ nest t child, tr = .busy nest t child →
      ∃ snapshot, (child.pause now).2 = .ok snapshot) (table : List TokenRecord) :
    tr.capture now table = (tr.hushed now, .ok (registerAll table tr.tokens, tr.state? now)) := by
  cases tr with
  | busy nest t child =>
    obtain ⟨snapshot, hsnapshot⟩ := h nest t child rfl
    have hpause : child.pause now = ((child.pause now).1, .ok snapshot) := by rw [← hsnapshot]
    rw [capture, hpause]
    simp only [hushed, state?, hsnapshot]
    rfl
  | pass => rw [capture]; rfl
  | split => rw [capture]; rfl
  | join => rw [capture]; rfl
  | task => rw [capture]; rfl
  | routed => rw [capture]; rfl
  | idle => rw [capture]; rfl

end Transition

namespace Slot

variable {now : Timestamp}

def hushed (now : Timestamp) (slot : Slot) : Slot :=
  { slot with phase := slot.phase.suspend, transition := slot.transition.hushed now }

def record? (now : Timestamp) (slot : Slot) : Option StepRecord :=
  (slot.transition.state? now).map (⟨slot.step, ·⟩)

theorem captureAll_eq {slots : List Slot}
    (h : ∀ slot ∈ slots, ∀ nest t child, slot.transition = .busy nest t child →
      ∃ snapshot, (child.pause now).2 = .ok snapshot) (table : List TokenRecord) :
    captureAll now table slots = (slots.map (hushed now),
      .ok (registerAll table (slots.flatMap (·.transition.tokens)),
        slots.filterMap (record? now))) := by
  induction slots generalizing table with
  | nil =>
    rw [captureAll]
    rfl
  | cons slot rest ih =>
    obtain ⟨step, inputs, outputs, phase, tr⟩ := slot
    have hone := Transition.capture_eq (h ⟨step, inputs, outputs, phase, tr⟩ List.mem_cons_self)
      table
    have hrest := ih fun slot hs => h slot (List.mem_cons_of_mem _ hs)
    rw [captureAll, hone]
    dsimp only
    rw [hrest]
    have hrecords : (⟨step, inputs, outputs, phase, tr⟩ :: rest).filterMap (record? now) =
        ((tr.state? now).map (⟨step, ·⟩)).toList ++ rest.filterMap (record? now) := by
      rw [List.filterMap_cons, record?]
      cases tr.state? now <;> rfl
    rw [hrecords]
    simp only [Except.map, List.map_cons, List.flatMap_cons, registerAll, List.foldl_append]
    rfl

end Slot

theorem Transition.capture_fst (now : Timestamp) (table : List TokenRecord) (tr : Transition) :
    (tr.capture now table).1 = tr.hushed now := by
  cases tr with
  | busy nest t child =>
    rw [capture]
    simp only [hushed]
    cases child.pause now with
    | mk child' result => cases result <;> rfl
  | pass => rw [capture]; rfl
  | split => rw [capture]; rfl
  | join => rw [capture]; rfl
  | task => rw [capture]; rfl
  | routed => rw [capture]; rfl
  | idle => rw [capture]; rfl

/-- A step that has been paused or is as before. -/
inductive Slot.Hushes (now : Timestamp) (slot : Slot) : Slot → Prop
  | same : Hushes now slot slot
  | hushed : Hushes now slot (slot.hushed now)

namespace Slot.Hushes

variable {now : Timestamp} {slot slot' : Slot}

theorem step (h : slot.Hushes now slot') : slot'.step = slot.step := by
  cases h <;> rfl

theorem tokens (h : slot.Hushes now slot') : slot'.transition.tokens = slot.transition.tokens := by
  cases h with
  | same => rfl
  | hushed => exact Transition.tokens_hushed now _

theorem taken (h : slot.Hushes now slot') : slot'.transition.taken = slot.transition.taken := by
  cases h with
  | same => rfl
  | hushed => exact Transition.taken_hushed now _

theorem outline (h : slot.Hushes now slot') : slot'.outline = slot.outline := by
  cases h with
  | same => rfl
  | hushed => simp only [Slot.outline, Slot.hushed, Transition.outline_hushed]

theorem outlines {slots slots' : List Slot} (h : List.Forall₂ (Hushes now) slots slots') :
    slots'.map Slot.outline = slots.map Slot.outline := by
  rw [← List.forall₂_eq_eq_eq, List.forall₂_map_left_iff, List.forall₂_map_right_iff]
  exact h.flip.imp fun slot' slot hhush => hhush.outline

theorem busy (h : slot.Hushes now slot') {nest : Nest} {t : Token} {child : Engine}
    (ht : slot'.transition = .busy nest t child) : ∃ before,
      slot.transition = .busy nest t before ∧ (child = before ∨ child = (before.pause now).1) := by
  cases h with
  | same => exact ⟨child, ht, .inl rfl⟩
  | hushed =>
    obtain ⟨before, hbefore, hchild⟩ := Transition.hushed_busy ht
    exact ⟨before, hbefore, .inr hchild⟩

theorem of_busy (h : slot.Hushes now slot') {nest : Nest} {t : Token} {before : Engine}
    (ht : slot.transition = .busy nest t before) : ∃ child,
      slot'.transition = .busy nest t child ∧ (child = before ∨ child = (before.pause now).1) := by
  cases h with
  | same => exact ⟨before, ht, .inl rfl⟩
  | hushed => exact ⟨_, by simp only [Slot.hushed, ht, Transition.hushed], .inr rfl⟩

theorem join (h : slot.Hushes now slot') {inputs : Nat} {pending : List Generation}
    (ht : slot'.transition = .join inputs pending) : slot.transition = .join inputs pending := by
  cases h with
  | same => exact ht
  | hushed =>
    cases slot with
    | mk step ins outs phase tr =>
      cases tr with
      | join => exact ht
      | _ => cases ht

end Slot.Hushes

/-- The steps that are reached are paused with the nets that they run; if a
snapshot comes of it, every net within has given one. -/
theorem Slot.captureAll_cases (now : Timestamp) (table : List TokenRecord) (slots : List Slot) :
    List.Forall₂ (Hushes now) slots (captureAll now table slots).1 ∧
    ∀ x, (captureAll now table slots).2 = .ok x → ∀ slot ∈ slots, ∀ nest t child,
      slot.transition = .busy nest t child → ∃ snapshot, (child.pause now).2 = .ok snapshot := by
  have hsame : ∀ slots : List Slot, List.Forall₂ (Hushes now) slots slots :=
    fun slots => List.forall₂_same.2 fun slot _ => .same
  induction slots generalizing table with
  | nil =>
    rw [captureAll]
    exact ⟨.nil, fun _ _ => List.forall_mem_nil _⟩
  | cons slot rest ih =>
    obtain ⟨step, inputs, outputs, phase, tr⟩ := slot
    rw [captureAll]
    have hfst := Transition.capture_fst now table tr
    cases hcapture : tr.capture now table with
    | mk tr' result =>
      rw [hcapture] at hfst
      obtain rfl : tr' = tr.hushed now := hfst
      cases result with
      | error f => exact ⟨.cons .hushed (hsame rest), nofun⟩
      | ok captured =>
        obtain ⟨table', state⟩ := captured
        obtain ⟨hslots, hnets⟩ := ih table'
        dsimp only
        refine ⟨.cons .hushed hslots, fun x hx => ?_⟩
        cases hrest : (captureAll now table' rest).2 with
        | error f =>
          rw [hrest] at hx
          cases hx
        | ok y =>
          refine List.forall_mem_cons.2 ⟨fun nest t child hbusy => ?_, hnets y hrest⟩
          dsimp only at hbusy
          subst hbusy
          rw [Transition.capture] at hcapture
          cases hpause : (child.pause now).2 with
          | ok snapshot => exact ⟨snapshot, rfl⟩
          | error f =>
            have hwhole : child.pause now = ((child.pause now).1, .error f) := by rw [← hpause]
            rw [hwhole] at hcapture
            cases hcapture

namespace Engine

variable {now : Timestamp} {e : Engine}

def Pausable (e : Engine) : Prop := e.Throughout fun e => e.status.paused?.isSome

theorem Awake.pausable (h : e.Awake) : e.Pausable :=
  h.imp fun e he => by rw [he.running]; rfl

theorem Asleep.pausable (h : e.Asleep) : e.Pausable :=
  h.imp fun e he => by rw [he.paused]; rfl

def hushed (now : Timestamp) (e : Engine) : Engine :=
  { e with
    status := e.status.paused?.getD e.status
    slots := e.slots.map (Slot.hushed now) }

/-- The tokens that a net itself holds or notes. -/
def tokens (e : Engine) : List Token :=
  e.holdings.flatMap (·.tokens) ++ e.slots.flatMap (·.transition.tokens)

def captured (now : Timestamp) (e : Engine) : Snapshot :=
  { planId := e.plan.id, version := e.plan.version, fingerprint := e.fingerprint,
    capturedAt := now, tokens := registerAll [] e.tokens, places := Holding.records e.holdings,
    transitions := e.slots.filterMap (Slot.record? now) }

theorem pause_eq (h : e.Pausable) (now : Timestamp) :
    e.pause now = (e.hushed now, .ok (e.captured now)) := by
  induction h with
  | @intro e here inside ih =>
    have hchildren : ∀ slot ∈ e.slots, ∀ nest t child, slot.transition = .busy nest t child →
        ∃ snapshot, (child.pause now).2 = .ok snapshot := fun slot hs nest t child ht =>
      ⟨_, congrArg Prod.snd (ih slot hs nest t child ht)⟩
    have hsteps := Slot.captureAll_eq hchildren (registerAll [] (e.holdings.flatMap (·.tokens)))
    obtain ⟨plan, fingerprint, status, holdings, slots, completion, haltedBy⟩ := e
    obtain ⟨next, hnext⟩ := Option.isSome_iff_exists.1 here
    dsimp only at hnext hsteps
    rw [pause]
    simp only [hnext, hsteps, Except.map]
    simp only [hushed, captured, tokens, registerAll, List.foldl_append, hnext, Option.getD_some]

theorem mem_hushed {slot : Slot} (h : slot ∈ (e.hushed now).slots) :
    ∃ old ∈ e.slots, slot = old.hushed now := by
  obtain ⟨old, hold, rfl⟩ := List.mem_map.1 h
  exact ⟨old, hold, rfl⟩

/-- The nets within a net that has been paused have been paused. -/
theorem hushed_child {slot : Slot} (h : slot ∈ (e.hushed now).slots) {nest : Nest} {t : Token}
    {child : Engine} (ht : slot.transition = .busy nest t child) :
    ∃ old ∈ e.slots, ∃ before, old.transition = .busy nest t before ∧
      slot = old.hushed now ∧ child = (before.pause now).1 := by
  obtain ⟨old, hold, rfl⟩ := mem_hushed h
  obtain ⟨before, hbefore, hchild⟩ := Transition.hushed_busy ht
  exact ⟨old, hold, before, hbefore, rfl, hchild⟩

/-- A property of all nets that pausing changes into another. -/
theorem pause_throughout {P Q : Engine → Prop} (h : e.Throughout P)
    (pausable : ∀ e, P e → e.status.paused?.isSome)
    (keeps : ∀ e, P e → e.Throughout P → Q (e.hushed now)) : (e.pause now).1.Throughout Q := by
  induction h with
  | @intro e here inside ih =>
    have hall : e.Throughout P := .intro here inside
    rw [pause_eq (hall.imp pausable) now]
    refine .intro (keeps e here hall) fun slot hs nest t child ht => ?_
    obtain ⟨old, hold, before, hbusy, -, rfl⟩ := hushed_child hs ht
    exact ih old hold nest t before hbusy

/-- A net that can be put to sleep: one that is at rest, or paused already. -/
structure Sleepy (e : Engine) : Prop where
  next : e.status.paused? = some .paused
  phases : ∀ slot ∈ e.slots, slot.phase.suspend = .paused
  completion : e.completion = none
  haltedBy : e.haltedBy = none

theorem Awake.sleepy (h : e.Awake) : e.Throughout Sleepy := by
  refine h.imp fun e he => ⟨?_, fun slot hs => ?_, he.completion, he.haltedBy⟩
  · rw [he.running]
    rfl
  · rw [he.active slot hs]
    rfl

theorem Asleep.sleepy (h : e.Asleep) : e.Throughout Sleepy := by
  refine h.imp fun e he => ⟨?_, fun slot hs => ?_, he.completion, he.haltedBy⟩
  · rw [he.paused]
    rfl
  · rw [he.phases slot hs]
    rfl

theorem asleep_of_pause (h : e.Throughout Sleepy) (now : Timestamp) : (e.pause now).1.Asleep := by
  refine pause_throughout h (fun e he => by rw [he.next]; rfl) fun e he _ => ?_
  refine ⟨by simp only [hushed, he.next]; rfl, fun slot hs => ?_, he.completion, he.haltedBy⟩
  obtain ⟨old, hold, rfl⟩ := mem_hushed hs
  exact he.phases old hold

theorem Awake.pause (h : e.Awake) (now : Timestamp) : (e.pause now).1.Asleep :=
  asleep_of_pause h.sleepy now

theorem Asleep.pause (h : e.Asleep) (now : Timestamp) : (e.pause now).1.Asleep :=
  asleep_of_pause h.sleepy now

theorem plan_pause (e : Engine) (now : Timestamp) : (e.pause now).1.plan = e.plan := by
  obtain ⟨plan, fingerprint, status, holdings, slots, completion, haltedBy⟩ := e
  rw [pause]
  cases status.paused? <;> rfl

/-- Pausing changes a status, and steps at most as pausing changes them. -/
theorem pause_cases (e : Engine) (now : Timestamp) : (e.pause now).1 = e ∨
    ∃ next slots, e.status.paused? = some next ∧ List.Forall₂ (Slot.Hushes now) e.slots slots ∧
      (e.pause now).1 = { e with status := next, slots } := by
  obtain ⟨plan, fingerprint, status, holdings, slots, completion, haltedBy⟩ := e
  rw [pause]
  cases hstatus : status.paused? with
  | none => exact .inl rfl
  | some next =>
    refine .inr ⟨next, _, rfl, ?_, rfl⟩
    exact (Slot.captureAll_cases now _ slots).1

theorem keeps_pause {P : Engine → Prop} (h : P e) (now : Timestamp)
    (keeps : ∀ next slots, List.Forall₂ (Slot.Hushes now) e.slots slots →
      P { e with status := next, slots }) : P (e.pause now).1 := by
  rcases pause_cases e now with hsame | ⟨next, slots, -, hslots, hpause⟩
  · rwa [hsame]
  · rw [hpause]
    exact keeps next slots hslots

/-- Pausing leaves a net that is not live as it is, and brings no status about but the paused
one. -/
theorem status_pause (e : Engine) (now : Timestamp) : (e.pause now).1 = e ∨
    ((e.status = .running ∨ e.status = .paused) ∧ (e.pause now).1.status = .paused) ∨
      e.status = .halted ∧ (e.pause now).1.status = .halted := by
  rcases pause_cases e now with hsame | ⟨next, slots, hnext, -, hpause⟩
  · exact .inl hsame
  have hnow : (e.pause now).1.status = next := congrArg Engine.status hpause
  right
  cases hstatus : e.status <;> rw [hstatus] at hnext <;> cases hnext
  · exact .inl ⟨.inl rfl, hnow⟩
  · exact .inl ⟨.inr rfl, hnow⟩
  · exact .inr ⟨rfl, hnow⟩

theorem completion_pause (e : Engine) (now : Timestamp) :
    (e.pause now).1.completion = e.completion :=
  keeps_pause (P := fun x => x.completion = e.completion) rfl now fun _ _ _ => rfl

theorem pause_refused (h : e.status.paused? = none) (now : Timestamp) :
    e.pause now = (e, .error (.wrongState .pause e.status)) := by
  obtain ⟨plan, fingerprint, status, holdings, slots, completion, haltedBy⟩ := e
  rw [pause, h]

/-- A snapshot can only be had of a net that can be paused at every depth. -/
theorem pausable_of_pause {snapshot : Snapshot} (h : (e.pause now).2 = .ok snapshot) :
    e.Pausable := by
  have hall := throughout_of_forall (fun _ => True.intro) e
  induction hall generalizing snapshot with
  | @intro e _ _ ih =>
    have hnets : e.status.paused?.isSome ∧ ∀ slot ∈ e.slots, ∀ nest t child,
        slot.transition = .busy nest t child → ∃ snapshot, (child.pause now).2 = .ok snapshot := by
      obtain ⟨plan, fingerprint, status, holdings, slots, completion, haltedBy⟩ := e
      rw [pause] at h
      cases hstatus : status.paused? with
      | none => simp [hstatus] at h
      | some next =>
        refine ⟨rfl, ?_⟩
        simp only [hstatus] at h
        cases hcapture : (Slot.captureAll now (registerAll [] (holdings.flatMap (·.tokens)))
            slots).2 with
        | error f => simp [hcapture, Except.map] at h
        | ok x => exact (Slot.captureAll_cases now _ slots).2 x hcapture
    refine .intro hnets.1 fun slot hs nest t child ht => ?_
    obtain ⟨inner, hinner⟩ := hnets.2 slot hs nest t child ht
    exact ih slot hs nest t child ht hinner

/-- A property that does not depend on statuses and phases survives pausing. -/
theorem pause_keeps {P : Engine → Prop} (h : e.Throughout P) (now : Timestamp)
    (keeps : ∀ (e : Engine) next slots, List.Forall₂ (Slot.Hushes now) e.slots slots → P e →
      P { e with status := next, slots }) : (e.pause now).1.Throughout P := by
  induction h with
  | @intro e here inside ih =>
    rcases pause_cases e now with hsame | ⟨next, slots, -, hslots, hpause⟩
    · rw [hsame]
      exact .intro here inside
    · rw [hpause]
      refine .intro (keeps e next slots hslots here) fun slot hs nest t child ht => ?_
      obtain ⟨old, hold, hhush⟩ := exists_left_of_forall₂ hslots hs
      obtain ⟨before, hbefore, rfl | rfl⟩ := hhush.busy ht
      · exact inside old hold nest t child hbefore
      · exact ih old hold nest t before hbefore

theorem fits_pause {fitter : Fitter} (h : e.Throughout (Fits fitter)) (now : Timestamp) :
    (e.pause now).1.Throughout (Fits fitter) := by
  refine pause_keeps h now fun e next slots hslots he => ⟨?_, fun slot hs nest t child ht => ?_⟩
  · have hbuilt := he.1
    simp only [outline, ← Slot.Hushes.outlines hslots] at hbuilt
    exact hbuilt
  · obtain ⟨old, hold, hhush⟩ := exists_left_of_forall₂ hslots hs
    obtain ⟨before, hbefore, rfl | rfl⟩ := hhush.busy ht
    · exact he.2 old hold nest t child hbefore
    · rw [plan_pause]
      exact he.2 old hold nest t before hbefore

/-- The snapshots within a snapshot are those of the nets within. -/
theorem captured_throughout {Q : Engine → Prop} {P : Snapshot → Prop} (h : e.Throughout Q)
    (hp : e.Pausable) (gives : ∀ e, Q e → P (e.captured now)) :
    (e.captured now).Throughout P := by
  induction h with
  | @intro e here inside ih =>
    refine .intro (gives e here) fun step id inner hmem => ?_
    obtain ⟨slot, hs, hrecord⟩ := List.mem_filterMap.1 hmem
    obtain ⟨state, hstate, heq⟩ := Option.map_eq_some_iff.1 hrecord
    obtain ⟨-, rfl⟩ := StepRecord.mk.inj heq
    cases htr : slot.transition with
    | busy nest t child =>
      have hchild := hp.child hs htr
      rw [htr, Transition.state?, pause_eq hchild] at hstate
      obtain ⟨-, rfl⟩ := StepState.nested.inj (Option.some.inj hstate)
      exact ih slot hs nest t child htr hchild
    | join ins pending =>
      rw [htr, Transition.state?] at hstate
      split at hstate <;> cases hstate
    | task activity held =>
      rw [htr, Transition.state?] at hstate
      split at hstate <;> cases hstate
    | _ => rw [htr] at hstate; cases hstate

/-- The joins of a snapshot are those of the net. -/
theorem captured_join {now : Timestamp} {step : String} {records : List GenerationRecord}
    (h : ⟨step, .join records⟩ ∈ (e.captured now).transitions) :
    ∃ slot ∈ e.slots, slot.step = step ∧ ∃ inputs pending,
      slot.transition = .join inputs pending ∧ records = pending.map (·.record) := by
  obtain ⟨slot, hs, hrecord⟩ := List.mem_filterMap.1 h
  obtain ⟨state, hstate, heq⟩ := Option.map_eq_some_iff.1 hrecord
  obtain ⟨hstep, rfl⟩ := StepRecord.mk.inj heq
  refine ⟨slot, hs, hstep, ?_⟩
  cases htr : slot.transition with
  | join inputs pending =>
    rw [htr, Transition.state?] at hstate
    split at hstate
    · cases hstate
    · exact ⟨inputs, pending, rfl, (StepState.join.inj (Option.some.inj hstate)).symm⟩
  | task activity held =>
    rw [htr, Transition.state?] at hstate
    split at hstate <;> cases hstate
  | busy nest t child =>
    rw [htr, Transition.state?] at hstate
    obtain ⟨inner, -, heq⟩ := Option.map_eq_some_iff.1 hstate
    cases heq
  | _ => rw [htr] at hstate; cases hstate

/-- Pausing forgets no token. -/
theorem MentionsAt.pause {path : List String} {t : Token} (ht : e.MentionsAt path t)
    (now : Timestamp) : (e.pause now).1.MentionsAt path t := by
  induction ht with
  | @place e h t stands isHeld =>
    rcases pause_cases e now with hsame | ⟨next, slots, -, -, hpause⟩
    · rw [hsame]
      exact .place stands isHeld
    · rw [hpause]
      exact .place stands isHeld
  | @step e slot t stands isKept =>
    rcases pause_cases e now with hsame | ⟨next, slots, -, hslots, hpause⟩
    · rw [hsame]
      exact .step stands isKept
    · rw [hpause]
      obtain ⟨slot', hs', hhush⟩ := exists_left_of_forall₂ hslots.flip stands
      exact .step hs' (hhush.tokens ▸ isKept)
  | parent _ split ih => exact .parent ih split
  | @nested e slot nest u child path t stands busy inside ih =>
    rcases pause_cases e now with hsame | ⟨next, slots, -, hslots, hpause⟩
    · rw [hsame]
      exact .nested stands busy inside
    · rw [hpause]
      obtain ⟨slot', hs', hhush⟩ := exists_left_of_forall₂ hslots.flip stands
      -- The net within is paused as well, or pausing has failed before it.
      obtain ⟨child', hbusy, rfl | rfl⟩ := hhush.of_busy busy
      · rw [← hhush.step]
        exact .nested hs' hbusy inside
      · rw [← hhush.step]
        exact .nested hs' hbusy ih

/-- Pausing makes no token up. -/
theorem MentionsAt.of_pause {path : List String} {t : Token}
    (ht : (e.pause now).1.MentionsAt path t) : e.MentionsAt path t := by
  generalize he : (e.pause now).1 = e' at ht
  induction ht generalizing e with
  | place stands isHeld =>
    rcases pause_cases e now with hsame | ⟨next, slots, -, -, hpause⟩
    · rw [← he, hsame] at stands
      exact .place stands isHeld
    · rw [← he, hpause] at stands
      exact .place stands isHeld
  | step stands isKept =>
    rcases pause_cases e now with hsame | ⟨next, slots, -, hslots, hpause⟩
    · rw [← he, hsame] at stands
      exact .step stands isKept
    · rw [← he, hpause] at stands
      obtain ⟨old, hold, hhush⟩ := exists_left_of_forall₂ hslots stands
      exact .step hold (hhush.tokens ▸ isKept)
  | parent _ split ih => exact .parent (ih he) split
  | nested stands busy inside ih =>
    rcases pause_cases e now with hsame | ⟨next, slots, -, hslots, hpause⟩
    · rw [← he, hsame] at stands
      exact .nested stands busy inside
    · rw [← he, hpause] at stands
      obtain ⟨old, hold, hhush⟩ := exists_left_of_forall₂ hslots stands
      obtain ⟨before, hbefore, rfl | rfl⟩ := hhush.busy busy
      · rw [hhush.step]
        exact .nested hold hbefore inside
      · rw [hhush.step]
        exact .nested hold hbefore (ih rfl)

/-- Pausing forgets no token and makes none up. -/
theorem lore_pause (e : Engine) (now : Timestamp) : (e.pause now).1.lore = e.lore := by
  funext path
  ext t
  exact ⟨fun ht => ht.of_pause, fun ht => ht.pause now⟩

theorem Orderly.hushes {F : Nat → Generation → Prop} (h : e.Orderly F) {slots : List Slot}
    (hslots : List.Forall₂ (Slot.Hushes now) e.slots slots) (next : Status) :
    Engine.Orderly F { e with status := next, slots } := by
  intro slot hs inputs pending htr
  obtain ⟨old, hold, hhush⟩ := exists_left_of_forall₂ hslots hs
  exact h old hold inputs pending (hhush.join htr)

theorem Orderly.pause {F : Nat → Generation → Prop} (h : e.Orderly F) (now : Timestamp) :
    (e.pause now).1.Orderly F :=
  keeps_pause h now fun next _ hslots => h.hushes hslots next

theorem orderly_pause {F : Nat → Generation → Prop} (h : e.Throughout (Orderly F))
    (now : Timestamp) : (e.pause now).1.Throughout (Orderly F) :=
  pause_keeps h now fun _ next _ hslots he => he.hushes hslots next

end Engine
end RecipeNet
