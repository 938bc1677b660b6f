import RecipeNet.Proofs.Net.Awaiting
import RecipeNet.Proofs.Net.Tally

/-!
What tasks hold, by address. Whoever follows the reports of a net knows what each of its
tasks holds, as long as the nets around the task run: whatever a net works off, and whatever
report of the outside it takes, what is held then follows from what has been reported.
-/

namespace RecipeNet

/-- What is held by the task that an address leads to within a step, unless a net on the way
does not run. -/
def Transition.custody : Transition → List String → Option (List Token)
  | .task _ held, [] => some held
  | .busy _ _ child, head :: rest =>
    (child.slots.find? (·.step == head)).bind fun slot => slot.transition.custody rest
  | _, _ => none

def Engine.custody (e : Engine) : List String → Option (List Token)
  | [] => none
  | head :: rest => (e.slots.find? (·.step == head)).bind fun slot => slot.transition.custody rest

abbrev Custody := List String → Option (List Token)

namespace Transition

variable {tr : Transition} {path : List String} {nest : Nest} {t : Token} {child : Engine}

/-- Within a step that runs a nested plan it is the nested net that holds. -/
theorem custody_busy : (busy nest t child).custody path = child.custody path := by
  cases path <;> rfl

def Bare : Transition → Prop
  | .task _ _ | .busy _ _ _ => False
  | _ => True

/-- Only tasks hold, and nets. -/
theorem Bare.custody_eq (h : tr.Bare) : tr.custody path = none := by
  cases tr with
  | task | busy => cases h
  | pass | split | join | routed | idle => cases path <;> rfl

end Transition

/-- No net names two of its steps alike, and neither do those within it. -/
abbrev Engine.Distinct (e : Engine) : Prop :=
  e.Throughout fun e => (e.slots.map (·.step)).Nodup

def Transition.Distinct (tr : Transition) : Prop :=
  ∀ nest t child, tr = .busy nest t child → child.Distinct

/-- What a step has come to hold follows from what it has reported since. -/
structure Reaction.Tells (r : Reaction) (before : Custody) (r' : Reaction) (tr' : Transition) :
    Prop where
  step : r'.step = r.step
  distinct : tr'.Distinct
  told : ∃ events, r'.events = r.events ++ events ∧ (∀ e ∈ events, e.About r.step) ∧
    ∀ path, Traced (r.step :: path) (before path) events (tr'.custody path)

structure Run.Tells (before : Custody) (run : Run) : Prop where
  distinct : run.engine.Distinct
  traced : ∀ path, Traced path (before path) run.events (run.engine.custody path)

def Drive.Telling (drive : Drive) : Prop :=
  ∀ (e : Engine) (queue : List Engine.Notice) (s : Supply) (run : Run), e.Distinct →
    drive e queue s = some run → run.result = .ok () → run.Tells e.custody

namespace Reaction.Tells

variable {r r' r'' : Reaction} {before : Custody} {tr tr' : Transition}

theorem refl (h : tr.Distinct) : r.Tells tr.custody r tr :=
  ⟨rfl, h, [], (List.append_nil _).symm, List.forall_mem_nil _, fun _ => .refl _ _⟩

theorem trans (h : r.Tells before r' tr) (h' : r'.Tells tr.custody r'' tr') :
    r.Tells before r'' tr' := by
  obtain ⟨events, hevents, habout, htraced⟩ := h.told
  obtain ⟨more, hmore, habout', htraced'⟩ := h'.told
  rw [h.step] at habout' htraced'
  refine ⟨h'.step.trans h.step, h'.distinct, events ++ more, ?_, fun e he => ?_, fun path =>
    (htraced path).trans (htraced' path)⟩
  · rw [hmore, hevents, List.append_assoc]
  · exact (List.mem_append.1 he).elim (habout e) (habout' e)

/-- A step that holds nothing has nothing to tell of. -/
theorem bare (hbare : tr.Bare) (hstep : r'.step = r.step)
    (told : ∃ events, r'.events = r.events ++ events ∧ ∀ e ∈ events, e.About r.step) :
    r.Tells before r' tr := by
  obtain ⟨events, hevents, habout⟩ := told
  refine ⟨hstep, fun _ _ _ hbusy => (by subst hbusy; cases hbare), events, hevents, habout,
    fun path => ?_⟩
  rw [hbare.custody_eq]
  exact .gone

end Reaction.Tells

/-- A firing tells of itself, if it takes place. -/
theorem Reaction.fire_told {r r' : Reaction} {taken made : List (Nat × Token)} {fires : Bool}
    (h : r.fire taken made = (r', .ok fires)) : r'.step = r.step ∧
      ∃ events, r'.events = r.events ++ events ∧ ∀ e ∈ events, e.About r.step := by
  refine ⟨(fire_follows h).step, ?_⟩
  cases fires with
  | true => exact ⟨_, fire_events h, List.forall_mem_singleton.2 (.fired [])⟩
  | false =>
    obtain ⟨rfl, -⟩ := fire_false h
    exact ⟨[], (List.append_nil _).symm, List.forall_mem_nil _⟩

/-- A step that has fired, or has had nothing to fire with, holds nothing. -/
theorem Reaction.fire_tells {r : Reaction} {taken made : List (Nat × Token)} {tr : Transition}
    {before : Custody} (hbare : tr.Bare) (ok : discard (r.fire taken made).2 = .ok ()) :
    r.Tells before (r.fire taken made).1 tr := by
  cases hresult : (r.fire taken made).2 with
  | error f =>
    rw [hresult] at ok
    cases ok
  | ok fires =>
    obtain ⟨hstep, htold⟩ := fire_told (Prod.ext rfl hresult)
    exact .bare hbare hstep htold

theorem Join.complete_told {r r' : Reaction} {pending pending' : List Generation} {g : Generation}
    (h : complete pending g r = (r', pending', .ok ())) : r'.step = r.step ∧
      ∃ events, r'.events = r.events ++ events ∧ ∀ e ∈ events, e.About r.step := by
  unfold complete at h
  split at h
  · cases h
  all_goals
    rename_i hfire
    cases h
    exact Reaction.fire_told hfire

theorem Join.arrive_told {r r' : Reaction} {pending pending' : List Generation} {input : Nat} {t : Token}
    (h : arrive pending r input t = (r', pending', .ok ())) : r'.step = r.step ∧
      ∃ events, r'.events = r.events ++ events ∧ ∀ e ∈ events, e.About r.step := by
  have hsilent : r.step = r.step ∧
      ∃ events, r.events = r.events ++ events ∧ ∀ e ∈ events, e.About r.step :=
    ⟨rfl, [], (List.append_nil _).symm, List.forall_mem_nil _⟩
  unfold arrive at h
  split at h
  · cases h
    exact hsilent
  split at h
  · cases h
  dsimp only at h
  split at h
  · cases h
    exact hsilent
  split at h
  · cases h
    exact hsilent
  · cases h
  split at h
  · exact complete_told h
  · cases h
    exact hsilent

/-- What is held follows from what has been reported first and then. -/
theorem Run.Tells.after {before mid : Custody} {run : Run} {events : List Event} (h : run.Tells mid)
    (first : ∀ path, Traced path (before path) events (mid path)) : (run.after events).Tells before :=
  ⟨h.distinct, fun path => (first path).trans (h.traced path)⟩

namespace Engine

variable {e : Engine} {made : List (Nat × Token)} {slot : Slot} {path : List String}

theorem acceptAll_final : ∀ event ∈ (e.acceptAll made).2.2, event.Final := by
  rcases e.acceptAll_cases made with ⟨-, x, -, hold, -, -, -, hevents⟩ | ⟨-, hevents⟩
  · rw [hevents]
    exact List.forall_mem_singleton.2 trivial
  · rw [hevents]
    exact List.forall_mem_nil _

theorem custody_congr {e' : Engine} (h : e'.slots = e.slots) : e'.custody = e.custody := by
  funext path
  cases path with
  | nil => rfl
  | cons head rest => rw [custody, custody, h]

/-- Whatever is taken note of, nothing changes hands. -/
theorem acceptAll_traced (e : Engine) (made : List (Nat × Token)) (path : List String) :
    Traced path (e.custody path) (e.acceptAll made).2.2 ((e.acceptAll made).1.custody path) := by
  rw [custody_congr (slots_acceptAll e made)]
  exact .silent acceptAll_final _

theorem Distinct.of_slots {e' : Engine} (h : e.Distinct) (same : e'.slots = e.slots) : e'.Distinct :=
  Throughout.of_slots h (same ▸ h.here) fun slot hs => ⟨slot, same ▸ hs, rfl⟩

/-- The tasks of a net that has just been started hold nothing. -/
theorem Built.custody_entered {fitter : Fitter} {plan : Plan} (h : e.Built fitter plan) (start : Token)
    (path : List String) :
    (e.entered start).custody path = none ∨ (e.entered start).custody path = some [] := by
  cases path with
  | nil => exact .inl rfl
  | cons head rest =>
    rw [custody]
    cases hfind : (e.entered start).slots.find? (·.step == head) with
    | none => exact .inl rfl
    | some slot =>
      have hs := List.mem_of_find?_eq_some hfind
      obtain ⟨old, hold, htr⟩ := mem_activate hs
      have hnone := (h.fresh hold).2.2
      rw [← htr] at hnone
      rw [Option.bind_some]
      generalize hslot : slot.transition = tr at hnone
      cases tr with
      | task activity held =>
        obtain rfl : held = [] := hnone
        cases rest
        · exact .inr rfl
        · exact .inl rfl
      | busy nest u child => exact absurd hslot (entered_vacant h start hs nest u child)
      | pass | split | join | routed | idle => exact .inl (Transition.Bare.custody_eq trivial)

end Engine

namespace Nest

variable {nest : Nest} {t : Token} {child : Engine} {r : Reaction} {s : Supply} {reacted : Reacted}
  {drive : Drive}

/-- What follows an operation on the nested net goes well only if the operation has. -/
theorem settle_ok {run : Run} {next : Reaction → Token → Supply → Option Reacted}
    (h : nest.settle next t run r = some reacted) (ok : reacted.result = .ok ()) :
    run.result = .ok () := by
  unfold settle at h
  split at h
  · obtain rfl := Option.some.inj h
    cases ok
  split at h
  · obtain rfl := Option.some.inj h
    cases ok
  · assumption

/-- The reports of a nested net tell of what it holds, and those of the next one that begins. -/
theorem settle_tells {before : Custody} {run : Run} {next : Reaction → Token → Supply → Option Reacted}
    (hrun : run.Tells before)
    (hnext : ∀ r' waiting s', next r' waiting s' = some reacted →
      r'.Tells (Transition.idle nest).custody reacted.reaction reacted.transition)
    (h : nest.settle next t run r = some reacted) (ok : reacted.result = .ok ()) :
    r.Tells before reacted.reaction reacted.transition := by
  unfold settle at h
  split at h
  · obtain rfl := Option.some.inj h
    cases ok
  rename_i mid left done habsorb
  obtain ⟨hstep, hevents, hleft⟩ := absorb_ok habsorb
  have hended : r.Tells before mid (.idle nest) :=
    .bare trivial hstep ⟨_, hevents, about_within⟩
  split at h
  · obtain rfl := Option.some.inj h
    cases ok
  have hmid : r.Tells before mid (nest.transition left) := by
    rcases hleft with rfl | rfl
    · exact hended
    · obtain ⟨hdistinct, htraced⟩ := hrun
      refine ⟨hstep, fun _ _ _ h => (by cases h; exact hdistinct), _, hevents, about_within,
        fun path => ?_⟩
      rw [transition, Transition.custody_busy]
      exact (htraced path).within r.step
  split at h
  · split at h
    · exact hended.trans (hnext _ _ _ h)
    · obtain rfl := Option.some.inj h
      exact hmid
  · obtain rfl := Option.some.inj h
    exact hmid

/-- A step that has run its nested plan for a token tells of what it has come to hold. -/
theorem launch_tells {fuel : Nat} (hd : drive.Telling) (h : nest.launch drive fuel r t s = some reacted)
    (ok : reacted.result = .ok ()) :
    r.Tells (Transition.idle nest).custody reacted.reaction reacted.transition := by
  induction fuel generalizing r t s with
  | zero => cases h
  | succ fuel ih =>
    unfold launch at h
    split at h
    · obtain rfl := Option.some.inj h
      cases ok
    · rename_i mid hfire
      obtain rfl := Option.some.inj h
      obtain ⟨hstep, htold⟩ := Reaction.fire_told hfire
      exact .bare trivial hstep htold
    · rename_i mid hfire
      split at h
      · obtain rfl := Option.some.inj h
        cases ok
      rename_i child hbuild
      have hb := Engine.built_of_build hbuild
      dsimp only at h
      rw [Engine.enter_created hb.status] at h
      dsimp only at h
      split at h
      · cases h
      rename_i run hdrive
      generalize (startToken t s).1 = start at h hdrive
      have hdistinct : (child.entered start).Distinct :=
        Engine.entered_throughout hb start (Engine.Fits.entered hbuild start).distinctSteps
      -- the step has fired, so whatever is held within it from now on has begun since
      have hlaunched : r.Tells (Transition.idle nest).custody mid
          (.busy nest t (child.entered start)) := by
        refine ⟨(Reaction.fire_follows hfire).step, fun _ _ _ hbusy => (by cases hbusy; exact hdistinct),
          _, Reaction.fire_events hfire, List.forall_mem_singleton.2 (.fired []), fun path => ?_⟩
        rw [Transition.custody_busy]
        rcases hb.custody_entered start path with hnone | hempty
        · rw [hnone]
          exact .gone
        · cases path with
          | nil => cases hempty
          | cons head rest =>
            rw [hempty]
            have haround : Around [r.step] (r.step :: head :: rest) := by simp [Around]
            have htally : tally (r.step :: head :: rest) [] [.fired (.ofStep r.step)] = [] :=
              if_pos haround
            rw [← htally]
            exact .renewed ⟨[r.step], haround, List.mem_singleton_self _⟩
      refine hlaunched.trans (settle_tells ?_ (fun _ _ _ hnext => ih hnext) h ok)
      have hresult := settle_ok h ok
      have hrun : run.Tells _ :=
        hd _ _ _ run (hdistinct.of_slots (Engine.slots_acceptAll _ _)) hdrive hresult
      refine hrun.after fun path => ?_
      rw [Transition.custody_busy]
      exact Engine.acceptAll_traced _ [(child.startPlace, start)] path

end Nest

/-- A task that takes a token tells of it. -/
theorem Reaction.begin_tells {r mid : Reaction} {input : Nat} {t : Token} {activity : String}
    {held : List Token} (hfire : r.fire [(input, t)] [] = (mid, .ok true)) :
    r.Tells (Transition.task activity held).custody (announce mid activity t)
      (.task activity (held ++ [t])) := by
  have hstep := (fire_follows hfire).step
  refine ⟨hstep, nofun, [.fired (.ofStep r.step), .started (.ofStep r.step) activity t], ?_, ?_,
    fun path => ?_⟩
  · rw [announce, raise, fire_events hfire, hstep, List.append_assoc]
    rfl
  · exact List.forall_mem_cons.2
      ⟨.fired [], List.forall_mem_singleton.2 (.started [] activity t)⟩
  · cases path with
    | nil =>
      have htally : tally [r.step] held
          [.fired (.ofStep r.step), .started (.ofStep r.step) activity t] = held ++ [t] := by
        simp [tally, Event.tally, Address.ofStep, Around]
      rw [Transition.custody, ← htally]
      exact .kept held rfl
    | cons head path => exact .gone

/-- What a step makes of a notice it tells of. -/
theorem Transition.arrive_tells {drive : Drive} (hd : drive.Telling) {fuel : Nat} {tr : Transition}
    {r : Reaction} {input : Nat} {t : Token} {s : Supply} {reacted : Reacted} (distinct : tr.Distinct)
    (h : tr.arrive drive fuel r input t s = some reacted) (ok : reacted.result = .ok ()) :
    r.Tells tr.custody reacted.reaction reacted.transition := by
  have hsame : r.Tells tr.custody r tr := .refl distinct
  cases tr with
  | pass output =>
    simp only [arrive] at h
    split at h
    · obtain rfl := Option.some.inj h
      exact Reaction.fire_tells trivial ok
    · obtain rfl := Option.some.inj h
      exact hsame
  | split =>
    simp only [arrive] at h
    split at h
    · obtain rfl := Option.some.inj h
      exact Reaction.fire_tells trivial ok
    · obtain rfl := Option.some.inj h
      exact hsame
  | join inputs pending =>
    obtain rfl := Option.some.inj h
    obtain ⟨hstep, htold⟩ := Join.arrive_told (Prod.ext rfl (Prod.ext rfl ok))
    exact .bare trivial hstep htold
  | task activity held =>
    simp only [arrive] at h
    split at h
    · split at h
      · rename_i mid hfire
        obtain rfl := Option.some.inj h
        exact Reaction.begin_tells hfire
      · rename_i mid result hother hfire
        obtain rfl := Option.some.inj h
        cases result with
        | error f => cases ok
        | ok fires =>
          cases fires with
          | true => exact absurd rfl hother
          | false =>
            obtain ⟨rfl, -⟩ := Reaction.fire_false hfire
            exact hsame
    · obtain rfl := Option.some.inj h
      exact hsame
  | routed rule seen =>
    simp only [arrive] at h
    split at h
    · split at h
      · obtain rfl := Option.some.inj h
        cases ok
      split at h
      · obtain rfl := Option.some.inj h
        exact Reaction.fire_tells trivial ok
      · obtain rfl := Option.some.inj h
        cases ok
    · obtain rfl := Option.some.inj h
      exact hsame
  | idle nest =>
    simp only [arrive] at h
    split at h
    · exact nest.launch_tells hd h ok
    · obtain rfl := Option.some.inj h
      exact hsame
  | busy nest u child =>
    obtain rfl := Option.some.inj h
    exact hsame

def Custody.graft (c : Custody) (step : String) (inner : Custody) : Custody
  | [] => c []
  | head :: rest => if head = step then inner rest else c (head :: rest)

def Custody.release (c : Custody) (path : List String) (j : Nat) : Custody := fun p =>
  if p = path then (c p).map (·.eraseIdx j) else c p

theorem Custody.graft_release (c inner : Custody) (step : String) (path : List String) (j : Nat) :
    c.graft step (inner.release path j) = (c.graft step inner).release (step :: path) j := by
  funext p
  cases p with
  | nil => rfl
  | cons head rest =>
    by_cases hhead : head = step
    · subst hhead
      simp only [graft, release, if_true, List.cons.injEq, true_and]
    · simp only [graft, release, List.cons.injEq, hhead, false_and, if_false]

namespace Engine

variable {e : Engine} {i : Nat} {slot : Slot} {inner before : Custody}

theorem find_step (distinct : (e.slots.map (·.step)).Nodup) (hs : slot ∈ e.slots) :
    e.slots.find? (·.step == slot.step) = some slot := by
  cases hfind : e.slots.find? (·.step == slot.step) with
  | none =>
    have hnone := List.find?_eq_none.1 hfind slot hs
    simp at hnone
  | some other =>
    have hsame : other.step = slot.step := by simpa using List.find?_some hfind
    rw [List.inj_on_of_nodup_map distinct (List.mem_of_find?_eq_some hfind) hs hsame]

/-- What is held at an address that begins with a step is held within the step. -/
theorem custody_step (distinct : (e.slots.map (·.step)).Nodup) (hs : slot ∈ e.slots)
    (rest : List String) : e.custody (slot.step :: rest) = slot.transition.custody rest := by
  rw [custody, find_step distinct hs, Option.bind_some]

theorem custody_graft_self (distinct : (e.slots.map (·.step)).Nodup) (hs : slot ∈ e.slots) :
    Custody.graft e.custody slot.step slot.transition.custody = e.custody := by
  funext path
  cases path with
  | nil => rfl
  | cons head rest =>
    by_cases hhead : head = slot.step
    · subst hhead
      rw [Custody.graft, if_pos rfl, custody_step distinct hs]
    · exact if_neg hhead

theorem steps_become (i : Nat) (hs : List Holding) (tr : Transition) :
    (e.become i hs tr).slots.map (·.step) = e.slots.map (·.step) := by
  apply List.ext_getElem?
  intro j
  simp only [become, List.getElem?_map, List.getElem?_modify]
  by_cases hij : i = j
  · cases hslot : e.slots[j]? <;> simp [hij]
  · simp [hij]

theorem Distinct.become (h : e.Distinct) {tr : Transition} (distinct : tr.Distinct) (i : Nat)
    (hs : List Holding) : (e.become i hs tr).Distinct := by
  refine Throughout.become h ?_ distinct
  rw [steps_become]
  exact h.here

theorem custody_become (distinct : (e.slots.map (·.step)).Nodup) (stands : e.slots[i]? = some slot)
    (hs : List Holding) (tr : Transition) :
    (e.become i hs tr).custody = Custody.graft e.custody slot.step tr.custody := by
  have hnow : ((e.become i hs tr).slots.map (·.step)).Nodup := by
    rw [steps_become]
    exact distinct
  funext path
  cases path with
  | nil => rfl
  | cons head rest =>
    by_cases hhead : head = slot.step
    · subst hhead
      rw [Custody.graft, if_pos rfl]
      exact custody_step hnow (List.mem_of_getElem? (become_slot hs tr stands)) rest
    rw [Custody.graft, if_neg hhead]
    cases hfind : e.slots.find? (·.step == head) with
    | none =>
      have hnone : (e.become i hs tr).slots.find? (·.step == head) = none := by
        refine List.find?_eq_none.2 fun other hother => ?_
        rcases mem_become hother with hold | ⟨old, hat, rfl⟩
        · exact List.find?_eq_none.1 hfind other hold
        · exact List.find?_eq_none.1 hfind old (List.mem_of_getElem? hat)
      rw [custody, hnone, custody, hfind]
    | some other =>
      obtain rfl : other.step = head := by simpa using List.find?_some hfind
      have hother := List.mem_of_find?_eq_some hfind
      obtain ⟨j, hj⟩ := List.mem_iff_getElem?.1 hother
      have hij : i ≠ j := by
        rintro rfl
        obtain rfl := Option.some.inj (stands.symm.trans hj)
        exact hhead rfl
      have hstill : other ∈ (e.become i hs tr).slots :=
        List.mem_of_getElem? ((become_slot_ne hs tr hij).trans hj)
      rw [custody_step hnow hstill, custody_step distinct hother]

/-- What is held in a net follows from what is held within the step that has reacted. -/
theorem traced_become (distinct : (e.slots.map (·.step)).Nodup) (stands : e.slots[i]? = some slot)
    {events : List Event} {tr : Transition} (about : ∀ event ∈ events, event.About slot.step)
    (traced : ∀ path, Traced (slot.step :: path) (before path) events (tr.custody path))
    (hs : List Holding) (path : List String) :
    Traced path (Custody.graft e.custody slot.step before path) events
      ((e.become i hs tr).custody path) := by
  rw [custody_become distinct stands]
  cases path with
  | nil => exact .gone
  | cons head rest =>
    by_cases hhead : head = slot.step
    · subst hhead
      rw [Custody.graft, if_pos rfl, Custody.graft, if_pos rfl]
      exact traced rest
    · rw [Custody.graft, if_neg hhead, Custody.graft, if_neg hhead]
      cases hheld : e.custody (head :: rest) with
      | none => exact .gone
      | some held =>
        have hkept : Traced (head :: rest) (some held) events _ := .kept held rfl
        rwa [tally_elsewhere about hhead] at hkept

/-- What a visited step has come to hold follows from what its net has reported. -/
theorem visited_tells (distinct : e.Distinct) (stands : e.slots[i]? = some slot) {reacted : Reacted}
    (tells : (e.reaction slot).Tells before reacted.reaction reacted.transition)
    (ok : reacted.result = .ok ()) :
    (e.visited i reacted).engine.Distinct ∧
      ∀ path, Traced path (Custody.graft e.custody slot.step before path) (e.visited i reacted).events
        ((e.visited i reacted).engine.custody path) := by
  obtain ⟨r, tr, s, result⟩ := reacted
  obtain rfl := ok
  obtain ⟨-, htr, events, hevents, habout, htraced⟩ := tells
  obtain rfl : events = r.events := hevents.symm
  have hnow : (e.become i r.holdings tr).Distinct := distinct.become htr i r.holdings
  refine ⟨hnow.of_slots (slots_acceptAll _ r.produced), fun path => ?_⟩
  exact (traced_become distinct.here stands habout htraced r.holdings path).trans
    (acceptAll_traced _ r.produced path)

/-- A visit that is followed by something good has been good itself. -/
theorem ok_of_andThen {drive : Drive} {reacted : Reacted} {queue : List Notice} {run : Run}
    (hrun : (e.visited i reacted).andThen drive queue = some run) (ok : run.result = .ok ()) :
    reacted.result = .ok () := by
  cases hresult : reacted.result with
  | ok u => rfl
  | error f =>
    simp only [visited, hresult, Visit.andThen, Option.some.injEq] at hrun
    subst hrun
    cases ok

theorem andThen_tells {drive : Drive} (hd : drive.Telling) {v : Visit} (distinct : v.engine.Distinct)
    (traced : ∀ path, Traced path (before path) v.events (v.engine.custody path)) {queue : List Notice}
    {run : Run} (hrun : v.andThen drive queue = some run) (ok : run.result = .ok ()) :
    run.Tells before := by
  unfold Visit.andThen at hrun
  split at hrun
  · obtain rfl := Option.some.inj hrun
    cases ok
  · obtain ⟨rest, hrest, rfl⟩ := Option.map_eq_some_iff.1 hrun
    exact (hd _ _ _ rest distinct hrest ok).after traced

theorem drive_telling (fuel : Nat) : Drive.Telling (drive fuel) := by
  induction fuel with
  | zero =>
    intro e queue s run _ hrun
    cases hrun
  | succ fuel ih =>
    intro e queue s run distinct hrun ok
    have hsame : Run.Tells e.custody ⟨e, s, [], .ok ()⟩ := ⟨distinct, fun path => .refl path _⟩
    cases queue with
    | nil =>
      obtain rfl := Option.some.inj hrun
      exact hsame
    | cons n queue =>
      simp only [drive] at hrun
      split at hrun
      · obtain rfl := Option.some.inj hrun
        exact hsame
      split at hrun
      · exact ih _ _ _ _ distinct hrun ok
      rename_i slot hslot
      split at hrun
      · exact ih _ _ _ _ distinct hrun ok
      split at hrun
      · cases hrun
      rename_i reacted harrive
      have hok := ok_of_andThen hrun ok
      have hmem := List.mem_of_getElem? hslot
      obtain ⟨hnow, htraced⟩ := visited_tells distinct hslot
        (Transition.arrive_tells ih (fun _ _ _ hbusy => distinct.child hmem hbusy) harrive hok) hok
      rw [custody_graft_self distinct.here hmem] at htraced
      exact andThen_tells ih hnow htraced hrun ok

/-- A task tells of what it holds after it has given back one of its tokens. -/
theorem release_tells (r : Reaction) (activity : String) (held : List Token) (j place : Nat) (t : Token) :
    r.Tells (Custody.release (Transition.task activity held).custody [] j) (r.put place t)
      (.task activity (held.eraseIdx j)) := by
  refine ⟨rfl, nofun, [], (List.append_nil _).symm, List.forall_mem_nil _, fun path => ?_⟩
  cases path with
  | nil => exact .refl _ _
  | cons head path => exact .gone

/-- A report that is taken has one of its tokens given back by the task at the address, and
what is held from then on follows from what is reported. -/
theorem complete_tells {fuel : Nat} {path : List String} {token : TokenId} {output : Nat} {s : Supply}
    {run : Run} (distinct : e.Distinct) (hrun : complete fuel path e token output s = some run)
    (ok : run.result = .ok ()) :
    ∃ held j t, e.custody path = some held ∧ held[j]? = some t ∧ t.id = token ∧
      run.Tells (Custody.release e.custody path j) := by
  induction path generalizing e run with
  | nil =>
    unfold complete at hrun
    split at hrun
    all_goals
      obtain rfl := Option.some.inj hrun
      cases ok
  | cons head rest ih =>
    unfold complete at hrun
    split at hrun
    · obtain rfl := Option.some.inj hrun
      cases ok
    dsimp only at hrun
    split at hrun
    · obtain rfl := Option.some.inj hrun
      cases ok
    rename_i i hindex
    split at hrun
    · obtain rfl := Option.some.inj hrun
      cases ok
    rename_i slot hslot
    obtain rfl := Slot.slotIndex?_some hindex hslot
    have hmem := List.mem_of_getElem? hslot
    have hself := custody_graft_self distinct.here hmem
    -- Either the task at the end of the address gives the token back, or a net within is told.
    split at hrun
    · rename_i activity held htask
      have hok := ok_of_andThen hrun ok
      rcases release_cases held activity (e.reaction slot) token output s with
        ⟨j, t, place, hheld, hid, -, hrelease⟩ | ⟨f, -, hrefused⟩
      · rw [hrelease] at hrun hok
        obtain ⟨hnow, htraced⟩ := visited_tells distinct hslot (release_tells _ activity held j place t) hok
        rw [← htask, Custody.graft_release, hself] at htraced
        refine ⟨held, j, t, ?_, hheld, hid, andThen_tells (drive_telling fuel) hnow htraced hrun ok⟩
        rw [custody_step distinct.here hmem, htask]
        rfl
      · rw [hrefused] at hok
        cases hok
    · rename_i nest u child next more hbusy
      split at hrun
      · cases hrun
      rename_i inner hinner
      split at hrun
      · cases hrun
      rename_i reacted hsettle
      have hok := ok_of_andThen hrun ok
      have hchild := distinct.child hmem hbusy
      obtain ⟨held, j, t, hheld, hat, hid, htells⟩ := ih hchild hinner (Nest.settle_ok hsettle hok)
      have hreacted := Nest.settle_tells htells
        (fun _ _ _ hnext => nest.launch_tells (drive_telling fuel) hnext hok) hsettle hok
      obtain ⟨hnow, htraced⟩ := visited_tells distinct hslot hreacted hok
      have hwithin : child.custody = slot.transition.custody := by
        funext path
        rw [hbusy, Transition.custody_busy]
      rw [hwithin, Custody.graft_release, hself] at htraced
      refine ⟨held, j, t, ?_, hat, hid, andThen_tells (drive_telling fuel) hnow htraced hrun ok⟩
      rw [custody_step distinct.here hmem, ← hwithin]
      exact hheld
    · cases ok_of_andThen hrun ok
    · cases ok_of_andThen hrun ok

/-- A net that is started with a token holds what it has told of. -/
theorem startWith_tells {fitter : Fitter} {plan : Plan} (hbuild : build fitter plan = .ok e) {fuel : Nat}
    {t : Token} {s : Supply} {run : Run} (hrun : startWith fuel e t s = some run)
    (ok : run.result = .ok ()) : run.Tells (e.entered t).custody := by
  have hb := built_of_build hbuild
  have hdistinct : (e.entered t).Distinct :=
    entered_throughout hb t (Fits.entered hbuild t).distinctSteps
  simp only [startWith, enter_created hb.status] at hrun
  obtain ⟨rest, hrest, rfl⟩ := Option.map_eq_some_iff.1 hrun
  have hrest := drive_telling fuel _ _ _ rest (hdistinct.of_slots (slots_acceptAll _ _)) hrest ok
  exact hrest.after fun path => acceptAll_traced _ [(e.startPlace, t)] path

/-- What a net waits for is held by the task at the address. -/
theorem Awaits.custody (distinct : e.Distinct) {path : List String} {activity : String} {t : Token}
    {outs : Nat} (h : e.Awaits path activity t outs) : ∃ held, e.custody path = some held ∧ t ∈ held := by
  obtain ⟨slot, hs, ha⟩ := h
  induction ha generalizing e with
  | task task isHeld =>
    refine ⟨_, ?_, isHeld⟩
    rw [custody_step distinct.here hs, task]
    rfl
  | nested busy stands inside ih =>
    obtain ⟨held, hheld, ht⟩ := ih (distinct.child hs busy) stands
    refine ⟨held, ?_, ht⟩
    rw [custody_step distinct.here hs, busy, Transition.custody_busy]
    exact hheld

/-- What the task at an address holds the net waits for. -/
theorem awaits_of_custody {path : List String} {held : List Token} {t : Token}
    (h : e.custody path = some held) (ht : t ∈ held) : ∃ activity outs, e.Awaits path activity t outs := by
  induction path generalizing e with
  | nil => cases h
  | cons head rest ih =>
    obtain ⟨slot, hfind, hheld⟩ := Option.bind_eq_some_iff.1 h
    have hs := List.mem_of_find?_eq_some hfind
    obtain rfl : slot.step = head := by simpa using List.find?_some hfind
    cases htr : slot.transition with
    | task activity before =>
      rw [htr] at hheld
      cases rest with
      | nil =>
        obtain rfl := Option.some.inj hheld
        exact ⟨activity, _, slot, hs, .task htr ht⟩
      | cons next more => cases hheld
    | busy nest u child =>
      rw [htr, Transition.custody_busy] at hheld
      obtain ⟨activity, outs, inner, hinner, ha⟩ := ih hheld
      exact ⟨activity, outs, slot, hs, .nested htr hinner ha⟩
    | pass | split | join | routed | idle =>
      rw [htr] at hheld
      cases rest <;> cases hheld

end Engine

end RecipeNet
