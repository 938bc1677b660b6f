import RecipeNet.Proofs.Net.Equivariance

/-!
Nets depend on the identities that they draw, and on those alone. If of another supply
the replacements are drawn of what a net draws, a net with other identities answers
what the net itself does, with the replacements. What a supply would have given out
later plays no part.
-/

namespace RecipeNet

namespace Supply

variable {ρ : Equiv.Perm TokenId} {s s' : Supply} {n m : Nat}

def skip (s : Supply) (n : Nat) : Supply := { s with used := s.used + n }

theorem skip_skip (s : Supply) (n m : Nat) : (s.skip n).skip m = s.skip (n + m) := by
  simp only [skip, Nat.add_assoc]

/-- The identities that are drawn next of a second supply replace those of the first. -/
def Replaces (ρ : Equiv.Perm TokenId) (n : Nat) (s s' : Supply) : Prop :=
  ∀ i < n, s'.draw (s'.used + i) = ρ (s.draw (s.used + i))

theorem Replaces.left (h : Replaces ρ (n + m) s s') : Replaces ρ n s s' := by
  intro i hi
  apply h
  omega

theorem Replaces.right (h : Replaces ρ (n + m) s s') : Replaces ρ m (s.skip n) (s'.skip n) := by
  intro i hi
  have hat := h (n + i) (by omega)
  show s'.draw (s'.used + n + i) = ρ (s.draw (s.used + n + i))
  rwa [Nat.add_assoc, Nat.add_assoc]

end Supply

section

variable {X Y : Type} {ρ : Equiv.Perm TokenId}

/-- What comes of a supply answers for another one: some identities are drawn, and
where the replacements are drawn, the answer is that with the replacements. -/
def Mirrors (ρ : Equiv.Perm TokenId) (supply : X → Supply) (rename : Supply → X → X) (s : Supply)
    (answer : Option X) (other : Supply → Option X) : Prop :=
  ∀ x, answer = some x → ∃ n, supply x = s.skip n ∧
    ∀ s', s.Replaces ρ n s' → other s' = some (rename (s'.skip n) x)

theorem Mirrors.pure {supply : X → Supply} {rename : Supply → X → X} {s : Supply} {x : X}
    {other : Supply → Option X} (same : supply x = s) (h : ∀ s', other s' = some (rename s' x)) :
    Mirrors ρ supply rename s (some x) other := by
  intro y hy
  obtain rfl := Option.some.inj hy
  exact ⟨0, same, fun s' _ => h s'⟩

/-- What follows an answer is mirrored if both are. -/
theorem Mirrors.bind {supply : X → Supply} {rename : Supply → X → X} {supply' : Y → Supply}
    {rename' : Supply → Y → Y} {s : Supply} {answer : Option X} {other : Supply → Option X}
    (h : Mirrors ρ supply rename s answer other) {next next' : X → Option Y}
    (hnext : ∀ x, answer = some x → Mirrors ρ supply' rename' (supply x) (next x)
      fun s' => next' (rename s' x)) :
    Mirrors ρ supply' rename' s (answer.bind next) fun s' => (other s').bind next' := by
  intro y hy
  obtain ⟨x, hx, hy⟩ := Option.bind_eq_some_iff.1 hy
  obtain ⟨n, hn, hother⟩ := h x hx
  obtain ⟨m, hm, hlater⟩ := hnext x hx y hy
  refine ⟨n + m, by rw [hm, hn, Supply.skip_skip], fun s' hs => ?_⟩
  show (other s').bind next' = _
  rw [hother s' hs.left, ← Supply.skip_skip]
  exact hlater _ (hn ▸ hs.right)

theorem Mirrors.map {supply : X → Supply} {rename : Supply → X → X} {supply' : Y → Supply}
    {rename' : Supply → Y → Y} {s : Supply} {answer : Option X} {other : Supply → Option X}
    (h : Mirrors ρ supply rename s answer other) {f f' : X → Y}
    (same : ∀ x, supply' (f x) = supply x) (renames : ∀ s' x, f' (rename s' x) = rename' s' (f x)) :
    Mirrors ρ supply' rename' s (answer.map f) fun s' => (other s').map f' := by
  intro y hy
  obtain ⟨x, hx, rfl⟩ := Option.map_eq_some_iff.1 hy
  obtain ⟨n, hn, hother⟩ := h x hx
  refine ⟨n, (same x).trans hn, fun s' hs => ?_⟩
  show (other s').map f' = _
  rw [hother s' hs, Option.map_some, renames]

/-- Identities are drawn first. -/
theorem Mirrors.drawn {supply : X → Supply} {rename : Supply → X → X} {s : Supply} {n : Nat}
    {answer : Option X} {other later : Supply → Option X}
    (h : Mirrors ρ supply rename (s.skip n) answer later)
    (same : ∀ s', s.Replaces ρ n s' → other s' = later (s'.skip n)) :
    Mirrors ρ supply rename s answer other := by
  intro x hx
  obtain ⟨m, hm, hlater⟩ := h x hx
  refine ⟨n + m, by rw [hm, Supply.skip_skip], fun s' hs => ?_⟩
  rw [same s' hs.left, hlater _ hs.right, Supply.skip_skip]

end

/-- Drawing as many identities gives their replacements. -/
theorem Supply.Replaces.take {ρ : Equiv.Perm TokenId} {s s' : Supply} {n : Nat}
    (h : Replaces ρ n s s') : s'.take n = ((s.take n).1.map ρ, s'.skip n) := by
  unfold Supply.take
  rw [List.map_map]
  refine Prod.ext (List.map_congr_left fun i hi => ?_) rfl
  exact h i (List.mem_range.1 hi)

abbrev Reacted.Mirrors (ρ : Equiv.Perm TokenId) (s : Supply) (answer : Option Reacted)
    (other : Supply → Option Reacted) : Prop :=
  RecipeNet.Mirrors ρ Reacted.supply (Reacted.rename ρ) s answer other

abbrev Run.Mirrors (ρ : Equiv.Perm TokenId) (s : Supply) (answer : Option Run)
    (other : Supply → Option Run) : Prop :=
  RecipeNet.Mirrors ρ Run.supply (Run.rename ρ) s answer other

def Drive.Mirrored (ρ : Equiv.Perm TokenId) (drive : Drive) : Prop :=
  ∀ e queue s, Run.Mirrors ρ s (drive e queue s)
    fun s' => drive (e.rename ρ) (queue.map (Engine.Notice.rename ρ)) s'

variable {ρ : Equiv.Perm TokenId} {drive : Drive}

theorem Run.rename_after (run : Run) (events : List Event) (s : Supply) :
    (run.rename ρ s).after (events.map (Event.rename ρ)) = (run.after events).rename ρ s := by
  simp [after, rename]

theorem Run.Mirrors.after {s : Supply} {answer : Option Run} {other : Supply → Option Run}
    (h : Run.Mirrors ρ s answer other) (events : List Event) :
    Run.Mirrors ρ s (answer.map (·.after events))
      fun s' => (other s').map (·.after (events.map (Event.rename ρ))) :=
  h.map (fun _ => rfl) fun s' run => run.rename_after events s'

namespace Nest

variable (nest : Nest)

theorem mirrors_settle {next next' : Reaction → Token → Supply → Option Reacted}
    (hnext : ∀ r t s, Reacted.Mirrors ρ s (next r t s) (next' (r.rename ρ) (t.rename ρ)))
    (t : Token) (run : Run) (r : Reaction) :
    Reacted.Mirrors ρ run.supply (nest.settle next t run r)
      fun s' => (nest.rename ρ).settle next' (t.rename ρ) (run.rename ρ s') (r.rename ρ) := by
  have habsorb := nest.rename_absorb (ρ := ρ) (some (t, run.engine)) false r run.events
  have hrunning : (some (t, run.engine)).map (renameRunning ρ) =
      some (t.rename ρ, run.engine.rename ρ) := rfl
  rw [hrunning] at habsorb
  unfold settle
  simp only [Run.rename]
  rw [habsorb]
  obtain ⟨mid, left, result⟩ := nest.absorb (some (t, run.engine)) false r run.events
  cases result with
  | error f =>
    refine .pure rfl fun s' => ?_
    simp only [renamed_error, rename_transition]
    rfl
  | ok done =>
    cases run.result with
    | error f =>
      refine .pure rfl fun s' => ?_
      simp only [renamed_ok, renamed_error, rename_transition]
      rfl
    | ok u =>
      simp only [renamed_ok, Reaction.rename_waiting?]
      cases mid.waiting? 0 with
      | none =>
        refine .pure rfl fun s' => ?_
        simp only [Option.map_none, rename_transition]
        rfl
      | some waiting =>
        simp only [Option.map_some, id]
        cases done with
        | true => exact hnext mid waiting run.supply
        | false =>
          refine .pure rfl fun s' => ?_
          simp only [rename_transition]
          rfl

/-- A nested net has done something, and the step settles. -/
theorem mirrors_inner {next next' : Reaction → Token → Supply → Option Reacted}
    (hnext : ∀ r t s, Reacted.Mirrors ρ s (next r t s) (next' (r.rename ρ) (t.rename ρ)))
    (t : Token) (r : Reaction) {s : Supply} {answer : Option Run} {other : Supply → Option Run}
    (h : Run.Mirrors ρ s answer other) :
    Reacted.Mirrors ρ s (answer.bind fun run => nest.settle next t run r)
      fun s' => (other s').bind fun run =>
        (nest.rename ρ).settle next' (t.rename ρ) run (r.rename ρ) := by
  apply h.bind
  intro run _
  exact nest.mirrors_settle hnext t run r

/-- A nested net starts with the replacement. -/
theorem rename_startToken {s s' : Supply} (t : Token) (h : s.Replaces ρ 1 s') :
    startToken (t.rename ρ) s' = ((startToken t s).1.rename ρ, s'.skip 1) := by
  have hdrawn : s'.draw s'.used = ρ (s.draw s.used) := h 0 Nat.one_pos
  simp only [startToken, Supply.next, hdrawn, Token.rename_effectivePayload]
  rfl

def begin (nest : Nest) (drive : Drive) (next : Reaction → Token → Supply → Option Reacted)
    (r : Reaction) (t : Token) (child : Engine) (start : Token) (s : Supply) : Option Reacted :=
  match child.enter start with
  | .error f => some ⟨r, .busy nest t child, s, .error f⟩
  | .ok (child, notices, events) =>
    ((drive child notices s).map (·.after events)).bind fun run => nest.settle next t run r

theorem mirrors_begin (hdrive : drive.Mirrored ρ)
    {next next' : Reaction → Token → Supply → Option Reacted}
    (hnext : ∀ r t s, Reacted.Mirrors ρ s (next r t s) (next' (r.rename ρ) (t.rename ρ)))
    (r : Reaction) (t : Token) (child : Engine) (start : Token) (s : Supply) :
    Reacted.Mirrors ρ s (nest.begin drive next r t child start s) fun s' =>
      (nest.rename ρ).begin drive next' (r.rename ρ) (t.rename ρ) (child.rename ρ)
        (start.rename ρ) s' := by
  have henter := Engine.rename_enter (ρ := ρ) child start
  unfold begin
  simp only [henter]
  cases child.enter start with
  | error f => exact .pure rfl fun s' => rfl
  | ok entered =>
    obtain ⟨child', notices, events⟩ := entered
    exact nest.mirrors_inner hnext t r ((hdrive child' notices s).after events)

theorem launch_begin {fuel : Nat} {r r' : Reaction} {t : Token} {child : Engine}
    (fired : r.fire [(0, t)] [] = (r', .ok true))
    (built : Engine.build nest.fitter nest.plan = .ok child) (s : Supply) :
    nest.launch drive (fuel + 1) r t s = nest.begin drive (nest.launch drive fuel) r' t child
      (startToken t s).1 (startToken t s).2 := by
  unfold begin
  conv_lhs => unfold launch
  simp only [fired, built]
  cases child.enter (startToken t s).1 with
  | error f => rfl
  | ok entered =>
    obtain ⟨child', notices, events⟩ := entered
    dsimp only
    cases drive child' notices (startToken t s).2 <;> rfl

theorem mirrors_launch (hdrive : drive.Mirrored ρ) (fuel : Nat) (r : Reaction) (t : Token)
    (s : Supply) :
    Reacted.Mirrors ρ s (nest.launch drive fuel r t s)
      fun s' => (nest.rename ρ).launch drive fuel (r.rename ρ) (t.rename ρ) s' := by
  induction fuel generalizing r t s with
  | zero => exact fun x hx => by cases hx
  | succ fuel ih =>
    have hfire := r.rename_fire (ρ := ρ) [(0, t)] []
    have hbuild := Engine.rename_build (ρ := ρ) nest.fitter nest.plan
    have hplan : (nest.rename ρ).plan = nest.plan := rfl
    have hfitter : (nest.rename ρ).fitter = Fitter.rename ρ nest.fitter := rfl
    simp only [List.map_cons, List.map_nil, renameAt] at hfire
    by_cases hopens : ∃ r' child, r.fire [(0, t)] [] = (r', .ok true) ∧
        Engine.build nest.fitter nest.plan = .ok child
    · obtain ⟨r', child, hfired, hbuilt⟩ := hopens
      rw [hfired] at hfire
      rw [hbuilt] at hbuild
      rw [nest.launch_begin hfired hbuilt s]
      refine (nest.mirrors_begin hdrive ih r' t child _ (s.skip 1)).drawn fun s' hs => ?_
      rw [(nest.rename ρ).launch_begin hfire hbuild s', rename_startToken t hs]
    · unfold launch
      simp only [hfire, hplan, hfitter, hbuild]
      rcases hfired : r.fire [(0, t)] [] with ⟨mid, _ | _ | _⟩
      · exact .pure rfl fun s' => rfl
      · exact .pure rfl fun s' => rfl
      · cases hbuilt : Engine.build nest.fitter nest.plan with
        | error f => exact .pure rfl fun s' => rfl
        | ok child => exact absurd ⟨mid, child, hfired, hbuilt⟩ hopens

end Nest

namespace Transition

/-- The answer of a step that draws nothing more. -/
theorem mirrors_discard {α : Type} (r : Reaction) (tr : Transition) (s : Supply) (n : Nat)
    (result : Except Fault α) (f : α → α) {other : Supply → Option Reacted}
    (same : ∀ s', s.Replaces ρ n s' →
      other s' = some ⟨r.rename ρ, tr.rename ρ, s'.skip n, discard (renamed ρ f result)⟩) :
    Reacted.Mirrors ρ s (some ⟨r, tr, s.skip n, discard result⟩) other := by
  intro x hx
  obtain rfl := Option.some.inj hx
  refine ⟨n, rfl, fun s' hs => (same s' hs).trans ?_⟩
  cases result <;> rfl

theorem rename_siblings (ids : List TokenId) (t : Token) :
    (ids.map ρ).zipIdx.map (fun (id, output) =>
      ((output, (⟨id, none, some (t.rename ρ)⟩ : Token)) : Nat × Token)) =
      (ids.zipIdx.map fun (id, output) => (output, (⟨id, none, some t⟩ : Token))).map
        (renameAt ρ) := by
  rw [List.zipIdx_map, List.map_map, List.map_map]
  rfl

/-- What a step does about a token. -/
theorem mirrors_arrive (hdrive : drive.Mirrored ρ) (fuel : Nat) (tr : Transition) (r : Reaction)
    (k : Nat) (t : Token) (s : Supply) :
    Reacted.Mirrors ρ s (tr.arrive drive fuel r k t s)
      fun s' => (tr.rename ρ).arrive drive fuel (r.rename ρ) k (t.rename ρ) s' := by
  have hforward : ∀ output, (r.rename ρ).forward k output (t.rename ρ) =
      ((r.forward k output t).1.rename ρ, renamed ρ id (r.forward k output t).2) :=
    fun output => r.rename_fire [(k, t)] [(output, t)]
  cases tr with
  | pass output =>
    simp only [rename, arrive, Reaction.rename_holds, hforward]
    split
    · exact mirrors_discard _ _ s 0 _ id fun s' _ => rfl
    · exact .pure rfl fun s' => rfl
  | split =>
    simp only [rename, arrive, Reaction.rename_holds, Reaction.rename_outputs]
    split
    · refine mirrors_discard _ _ s r.outputs.length _ id fun s' hs => ?_
      rw [hs.take]
      simp only [rename_siblings]
      have hfire := r.rename_fire (ρ := ρ) [(k, t)]
        ((s.take r.outputs.length).1.zipIdx.map fun (id, output) => (output, ⟨id, none, some t⟩))
      simp only [List.map_cons, List.map_nil, renameAt] at hfire
      rw [hfire]
      rfl
    · exact .pure rfl fun s' => rfl
  | join inputs pending =>
    simp only [rename, arrive, Join.rename_arrive]
    exact .pure rfl fun s' => rfl
  | task activity held =>
    have hfire := r.rename_fire (ρ := ρ) [(k, t)] []
    simp only [List.map_cons, List.map_nil, renameAt] at hfire
    simp only [rename, arrive, Reaction.rename_holds, hfire]
    split
    · rcases r.fire [(k, t)] [] with ⟨mid, _ | _ | _⟩
      · exact .pure rfl fun s' => rfl
      · exact .pure rfl fun s' => rfl
      · refine .pure rfl fun s' => ?_
        have hraise := mid.rename_raise (ρ := ρ) (.started (.ofStep mid.step) activity t)
        simp only [renamed_ok, id, announce, Reaction.rename_step, Reacted.rename, rename,
          List.map_append, List.map_cons, List.map_nil]
        rw [← hraise]
        rfl
    · exact .pure rfl fun s' => rfl
  | routed rule seen =>
    have hrule : renameRule ρ rule (seen.map (Token.rename ρ)) (t.rename ρ) = rule seen t := by
      simp [renameRule, Function.comp_def]
    have hafter : (Transition.routed (renameRule ρ rule) (seen.map (Token.rename ρ) ++
        [t.rename ρ])) = (Transition.routed rule (seen ++ [t])).rename ρ := by
      simp [rename]
    simp only [rename, arrive, Reaction.rename_holds, hrule, hafter, hforward,
      Reaction.rename_outputs]
    split
    · cases rule seen t with
      | error reason => exact .pure rfl fun s' => rfl
      | ok output =>
        dsimp only
        split
        · exact mirrors_discard _ _ s 0 _ id fun s' _ => rfl
        · exact .pure rfl fun s' => rfl
    · exact .pure rfl fun s' => rfl
  | idle nest =>
    simp only [rename, arrive, Reaction.rename_holds]
    split
    · exact nest.mirrors_launch hdrive fuel r t s
    · exact .pure rfl fun s' => rfl
  | busy nest u child => exact .pure rfl fun s' => rfl

end Transition

namespace Engine

theorem mirrors_andThen (hdrive : drive.Mirrored ρ) (v : Visit) (queue : List Notice) :
    Run.Mirrors ρ v.supply (v.andThen drive queue)
      fun s' => (v.rename ρ s').andThen drive (queue.map (Notice.rename ρ)) := by
  unfold Visit.andThen Visit.rename
  cases v.result with
  | error f => exact .pure rfl fun s' => rfl
  | ok u =>
    simp only [renamed_ok, ← List.map_append]
    exact (hdrive v.engine (queue ++ v.notices) v.supply).after v.events

theorem visited_supply (e : Engine) (i : Nat) (reacted : Reacted) :
    (e.visited i reacted).supply = reacted.supply := by
  unfold visited
  cases reacted.result <;> rfl

/-- What a net does about a step's reaction. -/
theorem mirrors_visit (hdrive : drive.Mirrored ρ) (e : Engine) (i : Nat) (queue : List Notice)
    {s : Supply} {answer : Option Reacted} {other : Supply → Option Reacted}
    (h : Reacted.Mirrors ρ s answer other) :
    Run.Mirrors ρ s (answer.bind fun reacted => (e.visited i reacted).andThen drive queue)
      fun s' => (other s').bind fun reacted =>
        ((e.rename ρ).visited i reacted).andThen drive (queue.map (Notice.rename ρ)) := by
  apply h.bind
  intro reacted _
  simp only [rename_visited]
  rw [← visited_supply e i reacted]
  exact mirrors_andThen hdrive (e.visited i reacted) queue

theorem rename_slot? (e : Engine) (i : Nat) :
    (e.rename ρ).slots[i]? = e.slots[i]?.map (Slot.rename ρ) := by
  rw [rename_slots, List.getElem?_map]

/-- A reaction that has drawn nothing. -/
theorem mirrors_still (hdrive : drive.Mirrored ρ) (e : Engine) (i : Nat) {s : Supply}
    {reacted : Reacted} {other : Supply → Reacted} (same : reacted.supply = s)
    (h : ∀ s', other s' = reacted.rename ρ s') :
    Run.Mirrors ρ s ((e.visited i reacted).andThen drive [])
      fun s' => ((e.rename ρ).visited i (other s')).andThen drive [] := by
  have hreacted : Reacted.Mirrors ρ s (some reacted) fun s' => some (other s') :=
    .pure same fun s' => congrArg some (h s')
  exact mirrors_visit hdrive e i [] hreacted

theorem drive_step (fuel : Nat) {e : Engine} {n : Notice} {slot : Slot}
    (running : e.status = .running) (hslot : e.slots[n.slot]? = some slot)
    (active : slot.phase = .active) (queue : List Notice)
    (s : Supply) : Engine.drive (fuel + 1) e (n :: queue) s =
      (slot.transition.arrive (Engine.drive fuel) fuel (e.reaction slot) n.input n.token s).bind
        fun reacted => (e.visited n.slot reacted).andThen (Engine.drive fuel) queue := by
  simp only [Engine.drive, running, hslot, active, ne_eq, not_true, if_false]
  cases slot.transition.arrive (Engine.drive fuel) fuel (e.reaction slot) n.input n.token s <;> rfl

/-- Working off notices. -/
theorem drive_mirrored (fuel : Nat) : Drive.Mirrored ρ (Engine.drive fuel) := by
  induction fuel with
  | zero => exact fun e queue s x hx => by cases hx
  | succ fuel ih =>
    intro e queue s
    cases queue with
    | nil => exact .pure rfl fun s' => rfl
    | cons n queue =>
      have hstatus := rename_status (ρ := ρ) e
      have hslot := rename_slot? (ρ := ρ) e n.slot
      by_cases hvisits : e.status = .running ∧
          ∃ slot, e.slots[n.slot]? = some slot ∧ slot.phase = .active
      · obtain ⟨hrunning, slot, hat, hactive⟩ := hvisits
        rw [hat] at hslot
        rw [drive_step fuel hrunning hat hactive]
        have hother := drive_step fuel (n := n.rename ρ) (hstatus.trans hrunning) hslot hactive
          (queue.map (Notice.rename ρ))
        simp only [List.map_cons, hother, rename_reaction]
        exact mirrors_visit ih e n.slot queue
          (slot.transition.mirrors_arrive ih fuel (e.reaction slot) n.input n.token s)
      · simp only [Engine.drive, List.map_cons, Notice.rename, hstatus, hslot]
        split
        · exact .pure rfl fun s' => rfl
        rename_i hrunning
        cases hat : e.slots[n.slot]? with
        | none => exact ih e queue s
        | some slot =>
          have hpassive : slot.phase ≠ .active := fun hactive =>
            hvisits ⟨not_not.1 hrunning, slot, hat, hactive⟩
          have hphase : (slot.rename ρ).phase = slot.phase := rfl
          simp only [Option.map_some, hphase, if_pos hpassive]
          exact ih e queue s

/-- A task releases the replacement of the token. -/
theorem rename_release (held : List Token) (activity : String) (r : Reaction) (token : TokenId)
    (output : Nat) (s s' : Supply) :
    release (held.map (Token.rename ρ)) activity (r.rename ρ) (ρ token) output s' =
      (release held activity r token output s).rename ρ s' := by
  have hsame : ∀ t : Token, ((t.rename ρ).id == ρ token) = (t.id == token) := by
    intro t
    rw [Bool.eq_iff_iff]
    simp
  have hindex : (held.map (Token.rename ρ)).findIdx? (·.id == ρ token) =
      held.findIdx? (·.id == token) := by
    rw [List.findIdx?_map]
    exact congrArg (held.findIdx? ·) (funext hsame)
  unfold release
  rw [hindex]
  cases held.findIdx? (·.id == token) with
  | none => rfl
  | some i =>
    dsimp only
    rw [List.getElem?_map]
    cases held[i]? with
    | none => rfl
    | some t =>
      simp only [Option.map_some, Reaction.rename_produce]
      cases r.produce output t with
      | error f => rfl
      | ok r' =>
        simp only [renamed_ok, List.eraseIdx_map]
        rfl

theorem release_supply (held : List Token) (activity : String) (r : Reaction) (token : TokenId)
    (output : Nat) (s : Supply) : (release held activity r token output s).supply = s := by
  unfold release
  split
  · rfl
  · split
    · rfl
    · split <;> rfl

theorem complete_inner (fuel : Nat) (next : String) (more : List String) {i : Nat} {head : String}
    {e child : Engine} {slot : Slot} {nest : Nest} {t : Token} (running : e.status = .running)
    (hindex : slotIndex? e.slots head = some i) (hslot : e.slots[i]? = some slot)
    (busy : slot.transition = .busy nest t child) (token : TokenId) (output : Nat) (s : Supply) :
    complete fuel (head :: next :: more) e token output s =
      ((complete fuel (next :: more) child token output s).bind fun run =>
        nest.settle (nest.launch (Engine.drive fuel) fuel) t run (e.reaction slot)).bind
          fun reacted => (e.visited i reacted).andThen (Engine.drive fuel) [] := by
  conv_lhs => unfold complete
  simp only [running, hindex, hslot, busy, ne_eq, not_true, if_false]
  cases complete fuel (next :: more) child token output s with
  | none => rfl
  | some run =>
    dsimp only [Option.bind_some]
    cases nest.settle (nest.launch (Engine.drive fuel) fuel) t run (e.reaction slot) <;> rfl

/-- A net is told of a finished activity. -/
theorem mirrors_complete (fuel : Nat) (path : List String) (e : Engine) (token : TokenId)
    (output : Nat) (s : Supply) :
    Run.Mirrors ρ s (complete fuel path e token output s)
      fun s' => complete fuel path (e.rename ρ) (ρ token) output s' := by
  induction path generalizing e s with
  | nil =>
    unfold complete
    rw [rename_status]
    split <;> exact .pure rfl fun s' => rfl
  | cons head rest ih =>
    have hd : Drive.Mirrored ρ (Engine.drive fuel) := drive_mirrored fuel
    have hstatus := rename_status (ρ := ρ) e
    have hindex : slotIndex? (e.rename ρ).slots head = slotIndex? e.slots head := by
      rw [rename_slots, rename_slotIndex?]
    have hslot := rename_slot? (ρ := ρ) e
    -- Only a report for a net within calls the function again, so that case comes first.
    by_cases hwithin : ∃ next more i slot nest t child, rest = next :: more ∧
        e.status = .running ∧ slotIndex? e.slots head = some i ∧ e.slots[i]? = some slot ∧
        slot.transition = .busy nest t child
    · obtain ⟨next, more, i, slot, nest, t, child, rfl, hrunning, hi, hat, hbusy⟩ := hwithin
      have hat' := hslot i
      rw [hat] at hat'
      have hbusy' : (slot.rename ρ).transition =
          .busy (nest.rename ρ) (t.rename ρ) (child.rename ρ) := by
        show slot.transition.rename ρ = _
        rw [hbusy, Transition.rename]
      have hother := complete_inner fuel next more (hstatus.trans hrunning) (hindex.trans hi) hat'
        hbusy' (ρ token) output
      rw [complete_inner fuel next more hrunning hi hat hbusy]
      simp only [hother, rename_reaction]
      exact mirrors_visit hd e i [] (nest.mirrors_inner
        (fun r t s => nest.mirrors_launch hd fuel r t s) t (e.reaction slot) (ih child s))
    · unfold complete
      simp only [hstatus, hindex, hslot]
      split
      · exact .pure rfl fun s' => rfl
      rename_i hrunning
      cases hi : slotIndex? e.slots head with
      | none => exact .pure rfl fun s' => rfl
      | some i =>
        dsimp only
        cases hat : e.slots[i]? with
        | none => exact .pure rfl fun s' => rfl
        | some slot =>
          have htransition : (slot.rename ρ).transition = slot.transition.rename ρ := rfl
          simp only [Option.map_some, rename_reaction, htransition]
          cases hbusy : slot.transition with
          | task activity held =>
            cases rest with
            | nil =>
              apply mirrors_still hd e i
              · exact release_supply held activity (e.reaction slot) token output s
              · exact rename_release held activity (e.reaction slot) token output s
            | cons next more => exact mirrors_still hd e i rfl fun s' => rfl
          | idle nest => cases rest <;> exact mirrors_still hd e i rfl fun s' => rfl
          | busy nest t child =>
            cases rest with
            | nil => exact mirrors_still hd e i rfl fun s' => rfl
            | cons next more =>
              exact absurd ⟨next, more, i, slot, nest, t, child, rfl, not_not.1 hrunning, hi, hat,
                hbusy⟩ hwithin
          | _ => exact mirrors_still hd e i rfl fun s' => rfl

/-- A task announces the replacements. -/
theorem rename_announced (held : List Token) (activity : String) (r : Reaction) :
    (held.map (Token.rename ρ)).foldl (announce · activity ·) (r.rename ρ) =
      (held.foldl (announce · activity ·) r).rename ρ := by
  induction held generalizing r with
  | nil => rfl
  | cons t rest ih =>
    have hraise := r.rename_raise (ρ := ρ) (.started (.ofStep r.step) activity t)
    simp only [Event.rename] at hraise
    simp only [List.map_cons, List.foldl_cons, announce, Reaction.rename_step, hraise]
    exact ih _

def Again.Mirrored (ρ : Equiv.Perm TokenId) (again : Engine → Supply → Option Run) : Prop :=
  ∀ e s, Run.Mirrors ρ s (again e s) fun s' => again (e.rename ρ) s'

variable {again : Engine → Supply → Option Run}

theorem mirrors_goOn (hagain : Again.Mirrored ρ again) (hdrive : drive.Mirrored ρ) (fuel : Nat)
    (slot : Slot) (r : Reaction) (s : Supply) :
    Reacted.Mirrors ρ s (goOn again drive fuel slot r s)
      fun s' => goOn again drive fuel (slot.rename ρ) (r.rename ρ) s' := by
  have htransition : (slot.rename ρ).transition = slot.transition.rename ρ := rfl
  unfold goOn
  rw [htransition]
  cases slot.transition with
  | task activity held =>
    simp only [Transition.rename, rename_announced]
    exact .pure rfl fun s' => rfl
  | busy nest t child =>
    have hreacted := nest.mirrors_inner (fun r t s => nest.mirrors_launch hdrive fuel r t s) t r
      (hagain child s)
    convert hreacted using 1
    · dsimp only
      cases again child s <;> rfl
    · funext s'
      dsimp only [Transition.rename]
      cases again (child.rename ρ) s' <;> rfl
  | _ => exact .pure rfl fun s' => rfl

abbrev Visit.Mirrors (ρ : Equiv.Perm TokenId) (s : Supply) (answer : Option Visit)
    (other : Supply → Option Visit) : Prop :=
  RecipeNet.Mirrors ρ Visit.supply (Visit.rename ρ) s answer other

def Visit.proceed (again : Engine → Supply → Option Run) (drive : Drive) (fuel : Nat)
    (rest : List Nat) (v : Visit) : Option Visit :=
  match v.result with
  | .error f => some { v with result := .error f }
  | .ok () => (resumeSlots again drive fuel v.engine v.supply rest).map fun w =>
    { w with notices := v.notices ++ w.notices, events := v.events ++ w.events }

theorem resumeSlots_step (again : Engine → Supply → Option Run) (drive : Drive) (fuel : Nat)
    {i : Nat} {e : Engine} {slot : Slot} (running : e.status = .running)
    (hslot : e.slots[i]? = some slot) (rest : List Nat) (s : Supply) :
    resumeSlots again drive fuel e s (i :: rest) =
      (goOn again drive fuel slot (e.reaction slot) s).bind fun reacted =>
        (e.visited i reacted).proceed again drive fuel rest := by
  simp only [resumeSlots, running, hslot, ne_eq, not_true, if_false]
  cases goOn again drive fuel slot (e.reaction slot) s with
  | none => rfl
  | some reacted =>
    dsimp only [Option.bind_some, Visit.proceed]
    cases (e.visited i reacted).result with
    | error f => rfl
    | ok u =>
      dsimp only
      cases resumeSlots again drive fuel (e.visited i reacted).engine
        (e.visited i reacted).supply rest <;> rfl

/-- The steps go on in turn. -/
theorem mirrors_resumeSlots (hagain : Again.Mirrored ρ again) (hdrive : drive.Mirrored ρ)
    (fuel : Nat) (rest : List Nat) (e : Engine) (s : Supply) :
    Visit.Mirrors ρ s (resumeSlots again drive fuel e s rest)
      fun s' => resumeSlots again drive fuel (e.rename ρ) s' rest := by
  induction rest generalizing e s with
  | nil => exact .pure rfl fun s' => rfl
  | cons i rest ih =>
    have hstatus := rename_status (ρ := ρ) e
    have hslot := rename_slot? (ρ := ρ) e i
    by_cases hvisits : e.status = .running ∧ ∃ slot, e.slots[i]? = some slot
    · obtain ⟨hrunning, slot, hat⟩ := hvisits
      rw [hat] at hslot
      have hother := resumeSlots_step again drive fuel (hstatus.trans hrunning) hslot rest
      rw [resumeSlots_step again drive fuel hrunning hat]
      simp only [hother, rename_reaction]
      apply (mirrors_goOn hagain hdrive fuel slot (e.reaction slot) s).bind
      intro reacted _
      simp only [rename_visited]
      rw [← visited_supply e i reacted]
      generalize e.visited i reacted = v
      unfold Visit.proceed
      simp only [Visit.rename]
      cases v.result with
      | error f => exact .pure rfl fun s' => rfl
      | ok u =>
        simp only [renamed_ok]
        apply (ih v.engine v.supply).map
        · exact fun _ => rfl
        · intro s' w
          simp only [Visit.rename, List.map_append]
    · simp only [resumeSlots, hstatus, hslot]
      split
      · exact .pure rfl fun s' => rfl
      rename_i hrunning
      cases hat : e.slots[i]? with
      | none => exact ih e s
      | some slot => exact absurd ⟨not_not.1 hrunning, slot, hat⟩ hvisits

def Visit.conclude (drive : Drive) (held : List (Nat × Token)) (v : Visit) : Option Run :=
  match v.result with
  | .error f => some ⟨v.engine, v.supply, v.events, .error f⟩
  | .ok () => (drive (v.engine.acceptAll held).1 (v.notices ++ (v.engine.acceptAll held).2.1)
      v.supply).map (·.after (v.events ++ (v.engine.acceptAll held).2.2))

theorem mirrors_conclude (hdrive : drive.Mirrored ρ) (held : List (Nat × Token)) (v : Visit) :
    Run.Mirrors ρ v.supply (v.conclude drive held)
      fun s' => (v.rename ρ s').conclude drive (held.map (renameAt ρ)) := by
  unfold Visit.conclude
  simp only [Visit.rename, rename_acceptAll, ← List.map_append]
  cases v.result with
  | error f => exact .pure rfl fun s' => rfl
  | ok u =>
    simp only [renamed_ok]
    exact (hdrive _ _ v.supply).after _

theorem resume_step (fuel : Nat) {e : Engine} (paused : e.status = .paused) (s : Supply) :
    resume (fuel + 1) e s = (resumeSlots (resume fuel) (Engine.drive fuel) fuel
      { e.activate with status := .running } s (List.range e.slots.length)).bind
        (Visit.conclude (Engine.drive fuel) e.held) := by
  have hlength : e.activate.slots.length = e.slots.length := by
    simp only [activate, List.length_map]
  conv_lhs => unfold resume
  simp only [paused, ne_eq, not_true, if_false, hlength]
  cases resumeSlots (resume fuel) (Engine.drive fuel) fuel
    { e.activate with status := .running } s (List.range e.slots.length) with
  | none => rfl
  | some v =>
    dsimp only [Option.bind_some, Visit.conclude]
    cases v.result <;> rfl

/-- A paused net goes on. -/
theorem mirrors_resume (fuel : Nat) : Again.Mirrored ρ (resume fuel) := by
  induction fuel with
  | zero => exact fun e s x hx => by cases hx
  | succ fuel ih =>
    intro e s
    have hd : Drive.Mirrored ρ (Engine.drive fuel) := drive_mirrored fuel
    have hstatus := rename_status (ρ := ρ) e
    by_cases hpaused : e.status = .paused
    · have hwoken : { (e.rename ρ).activate with status := .running } =
          Engine.rename ρ { e.activate with status := .running } := by
        rw [rename_activate, rename_eq, rename_eq]
      have hlength : (e.rename ρ).slots.length = e.slots.length := by
        rw [rename_slots, List.length_map]
      rw [resume_step fuel hpaused]
      simp only [resume_step fuel (hstatus.trans hpaused), hwoken, hlength, rename_held]
      apply (mirrors_resumeSlots ih hd fuel (List.range e.slots.length)
        { e.activate with status := .running } s).bind
      intro v _
      exact mirrors_conclude hd e.held v
    · unfold resume
      simp only [hstatus, ne_eq, hpaused, not_false_eq_true, if_true]
      exact .pure rfl fun s' => rfl

end Engine
end RecipeNet
