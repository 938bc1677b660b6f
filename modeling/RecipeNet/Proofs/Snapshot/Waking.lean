import RecipeNet.Proofs.Net.Replay
import RecipeNet.Proofs.Snapshot.Pausing

/-!
How a net that has been paused goes on. The steps report what waits for them and
the nets within go on; then the tokens in places are offered once more, of which
only joins take notice. If all of them sit in their joins already, the net comes
to be as it was, and conversely.
-/

namespace RecipeNet

namespace Nest

variable {nest : Nest} {r r' : Reaction} {running left : Option (Token × Engine)}
  {done done' : Bool} {reacted : Reacted} {run : Run} {t : Token}

/-- No report gets lost on its way out. -/
theorem absorb_reports {events : List Event}
    (h : nest.absorb running done r events = (r', left, .ok done')) :
    (∀ e ∈ r.events, e ∈ r'.events) ∧
      ∀ e ∈ events, ∀ e', e.within r.step = some e' → e' ∈ r'.events := by
  rw [(absorb_ok h).2.1]
  exact ⟨fun e he => List.mem_append_left _ he, fun e he e' hwithin =>
    List.mem_append_right _ (List.mem_filterMap.2 ⟨e, he, hwithin⟩)⟩

theorem settle_reports {next : Reaction → Token → Supply → Option Reacted}
    (h : nest.settle next t run r = some reacted) (ok : reacted.result = .ok ())
    (later : ∀ r' waiting s', next r' waiting s' = some reacted →
      ∀ e ∈ r'.events, e ∈ reacted.reaction.events) :
    run.result = .ok () ∧ (∀ e ∈ r.events, e ∈ reacted.reaction.events) ∧
      ∀ e ∈ run.events, ∀ e', e.within r.step = some e' → e' ∈ reacted.reaction.events := by
  unfold settle at h
  split at h
  · obtain rfl := Option.some.inj h
    cases ok
  · rename_i mid left done habsorb
    obtain ⟨hold, hevents⟩ := absorb_reports habsorb
    split at h
    · obtain rfl := Option.some.inj h
      cases ok
    · rename_i hresult
      have hlast : ∀ e ∈ mid.events, e ∈ reacted.reaction.events := by
        split at h
        · split at h
          · exact later _ _ _ h
          · obtain rfl := Option.some.inj h
            exact fun _ he => he
        · obtain rfl := Option.some.inj h
          exact fun _ he => he
      exact ⟨hresult, fun e he => hlast e (hold e he),
        fun e he e' hwithin => hlast e' (hevents e he e' hwithin)⟩

theorem launch_reports {drive : Drive} {fuel : Nat} {s : Supply}
    (h : nest.launch drive fuel r t s = some reacted) (ok : reacted.result = .ok ()) :
    ∀ e ∈ r.events, e ∈ reacted.reaction.events := by
  induction fuel generalizing r t s with
  | zero => cases h
  | succ fuel ih =>
    unfold launch at h
    split at h
    · obtain rfl := Option.some.inj h
      cases ok
    · rename_i mid hfire
      obtain rfl := Option.some.inj h
      obtain ⟨rfl, -⟩ := Reaction.fire_false hfire
      exact fun _ he => he
    · rename_i mid hfire
      have hevents := Reaction.fire_events hfire
      split at h
      · obtain rfl := Option.some.inj h
        cases ok
      dsimp only at h
      split at h
      · obtain rfl := Option.some.inj h
        cases ok
      split at h
      · cases h
      have hreports := settle_reports h ok fun r' waiting s' hnext => ih hnext
      exact fun e he => hreports.2.1 e (hevents ▸ List.mem_append_left _ he)

/-- A nested net that goes on without completing stays. -/
theorem settle_quiet {next : Reaction → Token → Supply → Option Reacted}
    (unended : ∀ e ∈ run.events, ¬ e.Final) (ok : run.result = .ok ()) :
    nest.settle next t run r =
      some ⟨relay r run.events, .busy nest t run.engine, run.supply, .ok ()⟩ := by
  simp only [settle, absorb_quiet unended, ok, transition, Bool.false_eq_true, if_false]
  cases (relay r run.events).waiting? 0 <;> rfl

end Nest

/-- What becomes of a transition when its net goes on and nothing fires. -/
inductive Transition.Wakes (again : Engine → Supply → Option Run) : Transition → Transition → Prop
  | same {tr : Transition} (vacant : ∀ nest t child, tr ≠ .busy nest t child) : Wakes again tr tr
  | nested {nest : Nest} {t : Token} {child : Engine} {s : Supply} {run : Run}
      (answers : again child s = some run) (ok : run.result = .ok ())
      (quiet : ∀ a, .fired a ∉ run.events) :
    Wakes again (.busy nest t child) (.busy nest t run.engine)

theorem Transition.Wakes.busy {again : Engine → Supply → Option Run} {nest : Nest} {t : Token}
    {child child' : Engine} (h : Wakes again (.busy nest t child) (.busy nest t child')) :
    ∃ s run, again child s = some run ∧ run.result = .ok () ∧ (∀ a, .fired a ∉ run.events) ∧
      run.engine = child' := by
  cases h with
  | same vacant => exact absurd rfl (vacant nest t child)
  | nested answers ok quiet => exact ⟨_, _, answers, ok, quiet, rfl⟩

/-- A way for nested nets to go on that completes none unless something fires. -/
def Again.Lingers (again : Engine → Supply → Option Run) (child : Engine) : Prop :=
  ∀ s run, again child s = some run → run.result = .ok () → (∀ a, .fired a ∉ run.events) →
    ∀ e ∈ run.events, ¬ e.Final

namespace Engine

variable {again : Engine → Supply → Option Run} {drive : Drive} {fuel : Nat} {e : Engine}
  {s : Supply}

theorem goOn_quiet {slot : Slot} {reacted : Reacted}
    (lingers : ∀ nest t child, slot.transition = .busy nest t child → Again.Lingers again child)
    (h : goOn again drive fuel slot (e.reaction slot) s = some reacted)
    (ok : reacted.result = .ok ()) (quiet : ∀ a, .fired a ∉ reacted.reaction.events) :
    ∃ events, reacted.reaction = { e.reaction slot with events } ∧ (∀ x ∈ events, ¬ x.Final) ∧
      slot.transition.Wakes again reacted.transition := by
  unfold goOn at h
  split at h
  · rename_i activity held htr
    obtain rfl := Option.some.inj h
    rw [announce_all, htr]
    refine ⟨_, rfl, fun x hx => ?_, .same nofun⟩
    obtain ⟨t, -, rfl⟩ := List.mem_map.1 hx
    exact id
  · rename_i nest t child htr
    split at h
    · cases h
    rename_i run hrun
    obtain ⟨hok, -, hreports⟩ := Nest.settle_reports h ok fun r' waiting s' hnext =>
      Nest.launch_reports hnext ok
    have hquiet : ∀ a, .fired a ∉ run.events := fun a ha => quiet _ (hreports _ ha _ rfl)
    have hunended := lingers nest t child htr s run hrun hok hquiet
    rw [Nest.settle_quiet hunended hok] at h
    obtain rfl := Option.some.inj h
    rw [htr]
    refine ⟨_, rfl, fun x hx => ?_, .nested hrun hok hquiet⟩
    obtain ⟨y, -, hwithin⟩ := List.mem_filterMap.1 hx
    exact Event.not_final_within hwithin
  · rename_i hother hvacant
    obtain rfl := Option.some.inj h
    exact ⟨[], rfl, List.forall_mem_nil _, .same hvacant⟩

/-- The steps at some positions have gone on while nothing fired, and nothing else of
the net has changed. -/
structure Roused (again : Engine → Supply → Option Run) (rest : List Nat) (e e' : Engine) :
    Prop where
  outside : e' = { e with slots := e'.slots }
  length : e'.slots.length = e.slots.length
  stands : ∀ i slot, e.slots[i]? = some slot →
    ∃ tr, e'.slots[i]? = some { slot with transition := tr } ∧
      (i ∈ rest → slot.transition.Wakes again tr) ∧ (i ∉ rest → tr = slot.transition)

namespace Roused

variable {rest : List Nat} {e' : Engine} {i : Nat}

theorem nil : Roused again [] e e := by
  refine ⟨by cases e; rfl, rfl, fun i slot hi => ⟨slot.transition, by cases slot; exact hi, ?_⟩⟩
  exact ⟨fun hmem => absurd hmem List.not_mem_nil, fun _ => rfl⟩

/-- A position without a step. -/
theorem skip (vacant : e.slots[i]? = none) (h : Roused again rest e e') :
    Roused again (i :: rest) e e' := by
  refine ⟨h.outside, h.length, fun j slot hj => ?_⟩
  obtain ⟨tr, hat, hwakes, hkept⟩ := h.stands j slot hj
  refine ⟨tr, hat, fun hmem => ?_, fun hmem => hkept (mt (List.mem_cons_of_mem _) hmem)⟩
  rcases List.mem_cons.1 hmem with rfl | hrest
  · exact absurd (vacant.symm.trans hj) nofun
  · exact hwakes hrest

/-- A step that goes on before the others. -/
theorem cons {slot : Slot} {tr : Transition} (hslot : e.slots[i]? = some slot) (hi : i ∉ rest)
    (wakes : slot.transition.Wakes again tr)
    (h : Roused again rest (e.become i e.holdings tr) e') : Roused again (i :: rest) e e' := by
  refine ⟨h.outside, ?_, fun j slot' hj => ?_⟩
  · rw [h.length, become, List.length_modify]
  · by_cases hij : i = j
    · subst hij
      cases hslot.symm.trans hj
      obtain ⟨tr', hat, -, hkept⟩ := h.stands i _ (become_slot _ _ hslot)
      rw [hkept hi] at hat
      exact ⟨_, hat, fun _ => wakes, fun hmem => absurd List.mem_cons_self hmem⟩
    · obtain ⟨tr', hat, hrest, hkept⟩ := h.stands j slot' (by rwa [become_slot_ne _ _ hij])
      refine ⟨tr', hat, fun hmem => hrest ?_, fun hmem =>
        hkept (mt (List.mem_cons_of_mem _) hmem)⟩
      exact (List.mem_cons.1 hmem).resolve_left fun heq => hij heq.symm

end Roused

/-- Steps that have gone on in turn, and nothing has fired. -/
theorem resumeSlots_quiet {rest : List Nat} (hnodup : rest.Nodup) {v : Visit}
    (running : e.status = .running)
    (lingers : ∀ i ∈ rest, ∀ slot, e.slots[i]? = some slot → ∀ nest t child,
      slot.transition = .busy nest t child → Again.Lingers again child)
    (h : resumeSlots again drive fuel e s rest = some v) (ok : v.result = .ok ())
    (quiet : ∀ a, .fired a ∉ v.events) :
    v.notices = [] ∧ (∀ x ∈ v.events, ¬ x.Final) ∧ Roused again rest e v.engine := by
  induction rest generalizing e s v with
  | nil =>
    unfold resumeSlots at h
    obtain rfl := Option.some.inj h
    exact ⟨rfl, List.forall_mem_nil _, .nil⟩
  | cons i rest ih =>
    obtain ⟨hi, hnodup'⟩ := List.nodup_cons.1 hnodup
    unfold resumeSlots at h
    simp only [running, ne_eq, not_true, if_false] at h
    cases hslot : e.slots[i]? with
    | none =>
      simp only [hslot] at h
      obtain ⟨hnotices, hunended, hroused⟩ := ih hnodup' running
        (fun j hj => lingers j (List.mem_cons_of_mem _ hj)) h ok quiet
      exact ⟨hnotices, hunended, hroused.skip hslot⟩
    | some slot =>
      simp only [hslot] at h
      split at h
      · cases h
      rename_i reacted hgo
      obtain ⟨hresult, hreports⟩ := e.visited_reports i reacted
      split at h
      · obtain rfl := Option.some.inj h
        cases ok
      rename_i hok
      split at h
      · cases h
      rename_i w hw
      obtain rfl := Option.some.inj h
      have hquiet : ∀ a, .fired a ∉ reacted.reaction.events := fun a ha =>
        quiet a (List.mem_append_left _ (hreports _ ha))
      obtain ⟨events, hreaction, hfirst, hwakes⟩ := goOn_quiet
        (lingers i List.mem_cons_self slot hslot) hgo (hresult.symm.trans hok) hquiet
      have hvisit : e.visited i reacted =
          ⟨e.become i e.holdings reacted.transition, [], reacted.supply, events, .ok ()⟩ := by
        rw [← visited_quiet e i slot, ← hreaction, ← hresult.symm.trans hok]
      rw [hvisit] at hw
      -- The steps that come after this one are still as they were.
      have hlingers : ∀ j ∈ rest, ∀ slot',
          (e.become i e.holdings reacted.transition).slots[j]? = some slot' → ∀ nest t child,
            slot'.transition = .busy nest t child → Again.Lingers again child := by
        intro j hj slot' hat
        have hij : i ≠ j := fun heq => hi (heq ▸ hj)
        rw [become_slot_ne _ _ hij] at hat
        exact lingers j (List.mem_cons_of_mem _ hj) slot' hat
      obtain ⟨hnotices, hunended, hroused⟩ :=
        ih (e := e.become i e.holdings reacted.transition) (v := w) hnodup' running hlingers hw ok
          fun a ha => quiet a (List.mem_append_right _ ha)
      refine ⟨?_, fun x hx => ?_, .cons hslot hi hwakes hroused⟩
      · simp only [hvisit, hnotices, List.append_nil]
      · rw [hvisit] at hx
        rcases List.mem_append.1 hx with hx | hx
        · exact hfirst x hx
        · exact hunended x hx

end Engine

mutual
/-- What a net reports when it goes on: each token that a task holds, at any
depth, waits for its activity. -/
def Engine.awaited : Engine → List Event
  | ⟨_, _, _, _, slots, _, _⟩ => Slot.allAwaited slots

def Slot.allAwaited : List Slot → List Event
  | [] => []
  | ⟨step, _, _, _, tr⟩ :: rest => Transition.awaited step tr ++ Slot.allAwaited rest

def Transition.awaited (step : String) : Transition → List Event
  | .task activity held => held.map (.started (.ofStep step) activity)
  | .busy _ _ child => child.awaited.filterMap (·.within step)
  | _ => []
end

def Slot.awaited (slot : Slot) : List Event := slot.transition.awaited slot.step

theorem Slot.allAwaited_eq (slots : List Slot) : Slot.allAwaited slots = slots.flatMap awaited := by
  induction slots with
  | nil => rfl
  | cons slot rest ih =>
    cases slot
    rw [allAwaited, ih, List.flatMap_cons]
    rfl

namespace Engine

variable {now : Timestamp} {e : Engine} {s : Supply}

theorem awaited_eq (e : Engine) : e.awaited = e.slots.flatMap Slot.awaited := by
  cases e
  exact Slot.allAwaited_eq _

theorem awaited_unended (e : Engine) : ∀ x ∈ e.awaited, ¬ x.Final := by
  intro x hx
  rw [awaited_eq] at hx
  obtain ⟨slot, -, hx⟩ := List.mem_flatMap.1 hx
  unfold Slot.awaited at hx
  cases htr : slot.transition with
  | task activity held =>
    rw [htr, Transition.awaited] at hx
    obtain ⟨t, -, rfl⟩ := List.mem_map.1 hx
    exact id
  | busy nest t child =>
    rw [htr, Transition.awaited] at hx
    obtain ⟨y, -, hwithin⟩ := List.mem_filterMap.1 hx
    exact Event.not_final_within hwithin
  | _ =>
    rw [htr, Transition.awaited] at hx
    · cases hx
    all_goals nofun

/-- A running net whose steps at some positions have not gone on yet. -/
def lulled (now : Timestamp) (rest : List Nat) (e : Engine) : Engine :=
  { e with
    slots := e.slots.mapIdx fun i slot =>
      if i ∈ rest then { slot with transition := slot.transition.hushed now } else slot }

theorem lulled_at (now : Timestamp) {i : Nat} {slot : Slot} (rest : List Nat)
    (hi : e.slots[i]? = some slot) :
    (e.lulled now rest).slots[i]? = some
      (if i ∈ rest then { slot with transition := slot.transition.hushed now } else slot) := by
  change (e.slots.mapIdx _)[i]? = _
  rw [List.getElem?_mapIdx, hi]
  rfl

theorem lulled_nil (now : Timestamp) (e : Engine) : e.lulled now [] = e := by
  have hslots : (e.slots.mapIdx fun i slot =>
      if i ∈ ([] : List Nat) then { slot with transition := slot.transition.hushed now }
      else slot) = e.slots := by
    apply List.ext_getElem?
    intro i
    rw [List.getElem?_mapIdx]
    cases e.slots[i]? <;> rfl
  unfold lulled
  rw [hslots]
  cases e
  rfl

/-- The step at the first position goes on. -/
theorem lulled_become {i : Nat} {slot : Slot} {rest : List Nat} (hi : i ∉ rest)
    (hat : e.slots[i]? = some slot) :
    (e.lulled now (i :: rest)).become i e.holdings slot.transition = e.lulled now rest := by
  have hslots : ((e.lulled now (i :: rest)).slots.modify i fun s =>
      { s with transition := slot.transition }) = (e.lulled now rest).slots := by
    apply List.ext_getElem?
    intro j
    rw [List.getElem?_modify]
    cases hj : e.slots[j]? with
    | none => simp [lulled, hj]
    | some slot' =>
      rw [lulled_at _ _ hj, lulled_at _ _ hj]
      by_cases hij : i = j
      · subst hij
        cases hat.symm.trans hj
        cases slot
        simp [hi]
      · have hji : j ≠ i := fun heq => hij heq.symm
        simp [hij, hji]
  unfold become
  rw [hslots]
  rfl

/-- A net that has just been paused wakes up with the nets within asleep. -/
theorem woken_hushed (h : e.Brisk [] [] []) : { (e.hushed now).activate with status := .running } =
    e.lulled now (List.range e.slots.length) := by
  have hslots : (e.hushed now).activate.slots =
      (e.lulled now (List.range e.slots.length)).slots := by
    apply List.ext_getElem?
    intro i
    cases hi : e.slots[i]? with
    | none => simp [hushed, activate, lulled, hi]
    | some slot =>
      obtain ⟨hlt, -⟩ := List.getElem?_eq_some_iff.1 hi
      rw [lulled_at _ _ hi, if_pos (List.mem_range.2 hlt)]
      have hactive := h.active slot (List.mem_of_getElem? hi)
      simp [hushed, activate, hi, Slot.hushed, hactive, Phase.suspend, Phase.activate]
  have hwoken : { (e.hushed now).activate with status := .running } =
      { e with status := e.status, slots := (e.hushed now).activate.slots } := by
    rw [h.running]
    rfl
  rw [hwoken, hslots]
  rfl

/-- A step goes on to be as it was, if the net within it does. -/
theorem goOn_awaited {again : Engine → Supply → Option Run} {drive : Drive} {fuel : Nat}
    {slot : Slot} {r : Reaction} (hr : r.step = slot.step) (unreported : r.events = [])
    (inside : ∀ nest t child, slot.transition = .busy nest t child →
      again (child.pause now).1 s = some ⟨child, s, child.awaited, .ok ()⟩) :
    goOn again drive fuel { slot with transition := slot.transition.hushed now } r s =
      some ⟨{ r with events := slot.awaited }, slot.transition, s, .ok ()⟩ := by
  obtain ⟨step, inputs, outputs, phase, tr⟩ := slot
  dsimp only at hr inside
  have hsilent : { r with events := [] } = r := by
    rw [← unreported]
  cases tr with
  | task activity held =>
    simp only [goOn, Transition.hushed, announce_all, unreported, List.nil_append, hr]
    rfl
  | busy nest t child =>
    have hagain := inside nest t child rfl
    simp only [goOn, Transition.hushed, hagain]
    rw [Nest.settle_quiet child.awaited_unended rfl]
    simp only [Nest.relay, unreported, List.nil_append, hr]
    rfl
  | _ =>
    change some (Reacted.mk r _ s (.ok ())) = some (Reacted.mk { r with events := [] } _ s (.ok ()))
    rw [hsilent]
    rfl

/-- Steps that go on in turn to be as they were. -/
theorem resumeSlots_awaited {again : Engine → Supply → Option Run} {drive : Drive} {fuel : Nat}
    (running : e.status = .running)
    (inside : ∀ slot ∈ e.slots, ∀ nest t child, slot.transition = .busy nest t child →
      again (child.pause now).1 s = some ⟨child, s, child.awaited, .ok ()⟩)
    {rest : List Nat} (hnodup : rest.Nodup) (inRange : ∀ i ∈ rest, i < e.slots.length) :
    resumeSlots again drive fuel (e.lulled now rest) s rest =
      some ⟨e, [], s, (rest.filterMap (e.slots[·]?)).flatMap Slot.awaited, .ok ()⟩ := by
  induction rest with
  | nil =>
    rw [lulled_nil]
    rfl
  | cons i rest ih =>
    obtain ⟨hi, hnodup'⟩ := List.nodup_cons.1 hnodup
    obtain ⟨hlt, hrange⟩ := List.forall_mem_cons.1 inRange
    have hslot := List.getElem?_eq_getElem hlt
    have hlater := ih hnodup' hrange
    have hrunning : (e.lulled now (i :: rest)).status = .running := running
    have hat : (e.lulled now (i :: rest)).slots[i]? =
        some { e.slots[i] with transition := e.slots[i].transition.hushed now } := by
      rw [lulled_at _ _ hslot, if_pos List.mem_cons_self]
    have hgo : goOn again drive fuel
        { e.slots[i] with transition := e.slots[i].transition.hushed now }
        ((e.lulled now (i :: rest)).reaction
          { e.slots[i] with transition := e.slots[i].transition.hushed now }) s =
        some ⟨{ (e.lulled now (i :: rest)).reaction
          { e.slots[i] with transition := e.slots[i].transition.hushed now } with
          events := e.slots[i].awaited }, e.slots[i].transition, s, .ok ()⟩ :=
      goOn_awaited rfl rfl (inside _ (List.getElem_mem hlt))
    have hbecome : (e.lulled now (i :: rest)).become i (e.lulled now (i :: rest)).holdings
        e.slots[i].transition = e.lulled now rest := lulled_become hi hslot
    unfold resumeSlots
    simp only [hrunning, ne_eq, not_true, if_false, hat, hgo, visited_quiet, hbecome, hlater,
      List.nil_append, List.filterMap_cons, hslot, List.flatMap_cons]

end Engine
end RecipeNet
