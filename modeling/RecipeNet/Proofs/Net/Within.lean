import RecipeNet.Proofs.Asks

/-!
Cascades that go only so deep. What a net does about a notice, a report or the end of a
pause is given in terms of what the nets in it do; if these may be nested to some depth only,
the answers are those of the net without such a bound, as far as there are any.
-/

namespace RecipeNet.Engine

/-- Attends to a notice and then works off the others by `later`; nested nets work off theirs
by `inner`. -/
def attend (inner later : Drive) (fuel : Nat) (e : Engine) (n : Notice) (queue : List Notice)
    (s : Supply) : Option Run :=
  if e.status ≠ .running then some ⟨e, s, [], .ok ()⟩
  else
    match e.slots[n.slot]? with
    | none => later e queue s
    | some slot =>
      if slot.phase ≠ .active then later e queue s
      else
        match slot.transition.arrive inner fuel (e.reaction slot) n.input n.token s with
        | none => none
        | some reacted => (e.visited n.slot reacted).andThen later queue

def report (again : Engine → Option Run) (inner later : Drive) (fuel : Nat) (head : String)
    (rest : List String) (e : Engine) (token : TokenId) (output : Nat) (s : Supply) : Option Run :=
  if e.status ≠ .running then some ⟨e, s, [], .error (.wrongState .complete e.status)⟩
  else
    match slotIndex? e.slots head with
    | none => some ⟨e, s, [], .error (.unknownStep head)⟩
    | some i =>
      match e.slots[i]? with
      | none => some ⟨e, s, [], .error (.unknownStep head)⟩
      | some slot =>
        let r := e.reaction slot
        let refused (tr : Transition) (path : List String) : Option Run :=
          (e.visited i ⟨r, tr, s, .error (.notAwaiting (Address.text ⟨path⟩) token)⟩).andThen later []
        match slot.transition, rest with
        | .task activity held, [] =>
          (e.visited i (release held activity r token output s)).andThen later []
        | .busy nest t child, _ :: _ =>
          match again child with
          | none => none
          | some run =>
            match nest.settle (nest.launch inner fuel) t run r with
            | none => none
            | some reacted => (e.visited i reacted).andThen later []
        | .idle nest, _ :: _ => refused (.idle nest) rest
        | tr, _ => refused tr (head :: rest)

def awaken (again : Engine → Supply → Option Run) (inner later : Drive) (fuel : Nat) (e : Engine)
    (s : Supply) : Option Run :=
  if e.status ≠ .paused then some ⟨e, s, [], .error (.wrongState .resume e.status)⟩
  else
    let e := { e.activate with status := .running }
    match resumeSlots again inner fuel e s (List.range e.slots.length) with
    | none => none
    | some v =>
      match v.result with
      | .error f => some ⟨v.engine, v.supply, v.events, .error f⟩
      | .ok () =>
        let (e', notices, events) := v.engine.acceptAll e.held
        (later e' (v.notices ++ notices) v.supply).map (·.after (v.events ++ events))

theorem complete_cons (fuel : Nat) (head : String) (rest : List String) (e : Engine)
    (token : TokenId) (output : Nat) (s : Supply) :
    complete fuel (head :: rest) e token output s =
      report (fun child => complete fuel rest child token output s) (drive fuel) (drive fuel) fuel
        head rest e token output s := by
  conv_lhs => unfold complete
  unfold report
  split
  · rfl
  dsimp only
  cases slotIndex? e.slots head with
  | none => rfl
  | some i =>
    dsimp only
    cases e.slots[i]? with
    | none => rfl
    | some slot =>
      dsimp only
      cases slot.transition <;> cases rest <;> rfl

theorem resume_succ (fuel : Nat) (e : Engine) (s : Supply) :
    resume (fuel + 1) e s = awaken (resume fuel) (drive fuel) (drive fuel) fuel e s :=
  rfl

def driveWithin : Nat → Nat → Drive
  | 0, _, _, _, _ => none
  | _ + 1, 0, _, _, _ => none
  | _ + 1, _ + 1, e, [], s => some ⟨e, s, [], .ok ()⟩
  | fuel + 1, levels + 1, e, n :: queue, s =>
    attend (driveWithin fuel levels) (driveWithin fuel (levels + 1)) fuel e n queue s

def completeWithin (fuel : Nat) : Nat → List String → Engine → TokenId → Nat → Supply → Option Run
  | 0, _, _, _, _, _ => none
  | _ + 1, [], e, token, output, s => complete fuel [] e token output s
  | levels + 1, head :: rest, e, token, output, s =>
    report (fun child => completeWithin fuel levels rest child token output s)
      (driveWithin fuel levels) (driveWithin fuel (levels + 1)) fuel head rest e token output s

def resumeWithin : Nat → Nat → Engine → Supply → Option Run
  | 0, _, _, _ => none
  | _ + 1, 0, _, _ => none
  | fuel + 1, levels + 1, e, s =>
    awaken (resumeWithin fuel levels) (driveWithin fuel levels) (driveWithin fuel (levels + 1)) fuel
      e s

/-- The answer to a call that is worked out in no more than some levels of nets within each
other. In each of them no more notices are attended to, and at each step no more nets are
launched in turn, than the fuel says. -/
def answerWithin (fuel levels : Nat) (e : Engine) (s : Supply) : Call → Option Run
  | .start t =>
    match e.enter t with
    | .error f => some ⟨e, s, [], .error f⟩
    | .ok (e, notices, events) => (driveWithin fuel levels e notices s).map (·.after events)
  | .complete path token output => completeWithin fuel levels path e token output s
  | .resume => resumeWithin fuel levels e s

variable {inner later inner' later' : Drive} {fuel more levels : Nat} {e : Engine}
  {queue : List Notice} {s : Supply} {run : Run}

theorem attend_mono (hinner : inner'.Extends inner) (hlater : later'.Extends later)
    (hle : fuel ≤ more) {n : Notice} (h : attend inner later fuel e n queue s = some run) :
    attend inner' later' more e n queue s = some run := by
  unfold attend at h ⊢
  by_cases hrunning : e.status ≠ .running
  · rw [if_pos hrunning] at h ⊢
    exact h
  rw [if_neg hrunning] at h ⊢
  cases hslot : e.slots[n.slot]? with
  | none =>
    rw [hslot] at h
    exact hlater h
  | some slot =>
    rw [hslot] at h
    dsimp only at h ⊢
    by_cases hactive : slot.phase ≠ .active
    · rw [if_pos hactive] at h ⊢
      exact hlater h
    rw [if_neg hactive] at h ⊢
    split at h
    · cases h
    · rename_i reacted hreacted
      rw [Transition.arrive_mono hinner hle hreacted]
      exact andThen_mono hlater h

theorem report_mono {again again' : Engine → Option Run}
    (hagain : ∀ {child run}, again child = some run → again' child = some run)
    (hinner : inner'.Extends inner) (hlater : later'.Extends later) (hle : fuel ≤ more)
    {head : String} {rest : List String} {token : TokenId} {output : Nat}
    (h : report again inner later fuel head rest e token output s = some run) :
    report again' inner' later' more head rest e token output s = some run := by
  unfold report at h ⊢
  by_cases hrunning : e.status ≠ .running
  · rw [if_pos hrunning] at h ⊢
    exact h
  rw [if_neg hrunning] at h ⊢
  generalize slotIndex? e.slots head = index at h ⊢
  cases index with
  | none => exact h
  | some i =>
    dsimp only at h ⊢
    generalize e.slots[i]? = found at h ⊢
    cases found with
    | none => exact h
    | some slot =>
      dsimp only at h ⊢
      generalize slot.transition = tr at h ⊢
      cases tr with
      | busy nest t child =>
        cases rest with
        | nil => exact andThen_mono hlater h
        | cons next rest =>
          dsimp only at h ⊢
          split at h
          · cases h
          rename_i run' hrun
          rw [hagain hrun]
          dsimp only
          split at h
          · cases h
          rename_i reacted hreacted
          rw [Nest.settle_mono (fun r t s reacted => Nest.launch_mono hinner hle) hreacted]
          exact andThen_mono hlater h
      | task | idle => cases rest <;> exact andThen_mono hlater h
      | pass | split | join | routed => exact andThen_mono hlater h

theorem awaken_mono {again again' : Engine → Supply → Option Run}
    (hagain : Again.Extends again' again) (hinner : inner'.Extends inner)
    (hlater : later'.Extends later) (hle : fuel ≤ more)
    (h : awaken again inner later fuel e s = some run) :
    awaken again' inner' later' more e s = some run := by
  unfold awaken at h ⊢
  by_cases hpaused : e.status ≠ .paused
  · rw [if_pos hpaused] at h ⊢
    exact h
  rw [if_neg hpaused] at h ⊢
  dsimp only at h ⊢
  split at h
  · cases h
  rename_i v hv
  rw [resumeSlots_mono hagain hinner hle hv]
  dsimp only
  generalize v.result = result at h ⊢
  cases result with
  | error f => exact h
  | ok =>
    obtain ⟨last, hlast, rfl⟩ := Option.map_eq_some_iff.1 h
    exact Option.map_eq_some_iff.2 ⟨last, hlater hlast, rfl⟩

/-- More fuel gives the same answer. -/
theorem driveWithin_mono (hle : fuel ≤ more) (levels : Nat) :
    Drive.Extends (driveWithin more levels) (driveWithin fuel levels) := by
  induction fuel generalizing more levels with
  | zero =>
    intro e queue s run h
    cases h
  | succ fuel ih =>
    obtain ⟨more, rfl⟩ : ∃ n, more = n + 1 := ⟨more - 1, by omega⟩
    have hle : fuel ≤ more := by omega
    intro e queue s run h
    cases levels with
    | zero => cases h
    | succ levels =>
      cases queue with
      | nil => exact h
      | cons n queue => exact attend_mono (ih hle levels) (ih hle (levels + 1)) hle h

theorem completeWithin_mono (hle : fuel ≤ more) {path : List String} {token : TokenId}
    {output : Nat} (h : completeWithin fuel levels path e token output s = some run) :
    completeWithin more levels path e token output s = some run := by
  induction path generalizing levels e run with
  | nil =>
    cases levels with
    | zero => cases h
    | succ levels => exact complete_mono hle h
  | cons head rest ih =>
    cases levels with
    | zero => cases h
    | succ levels =>
      exact report_mono ih (driveWithin_mono hle levels) (driveWithin_mono hle (levels + 1)) hle h

theorem resumeWithin_mono (hle : fuel ≤ more) (levels : Nat) :
    Again.Extends (resumeWithin more levels) (resumeWithin fuel levels) := by
  induction fuel generalizing more levels with
  | zero =>
    intro e s run h
    cases h
  | succ fuel ih =>
    obtain ⟨more, rfl⟩ : ∃ n, more = n + 1 := ⟨more - 1, by omega⟩
    have hle : fuel ≤ more := by omega
    intro e s run h
    cases levels with
    | zero => cases h
    | succ levels =>
      exact awaken_mono (ih hle levels) (driveWithin_mono hle levels)
        (driveWithin_mono hle (levels + 1)) hle h

theorem answerWithin_mono (hle : fuel ≤ more) {call : Call}
    (h : answerWithin fuel levels e s call = some run) :
    answerWithin more levels e s call = some run := by
  cases call with
  | start t =>
    unfold answerWithin at h ⊢
    dsimp only at h ⊢
    generalize e.enter t = entered at h ⊢
    cases entered with
    | error f => exact h
    | ok entered =>
      obtain ⟨last, hlast, rfl⟩ := Option.map_eq_some_iff.1 h
      exact Option.map_eq_some_iff.2 ⟨last, driveWithin_mono hle levels hlast, rfl⟩
  | complete path token output => exact completeWithin_mono hle h
  | resume => exact resumeWithin_mono hle levels h

/-- What is worked out within some levels is what comes of it without a bound. -/
theorem driveWithin_extends (fuel levels : Nat) :
    Drive.Extends (drive fuel) (driveWithin fuel levels) := by
  induction fuel generalizing levels with
  | zero =>
    intro e queue s run h
    cases h
  | succ fuel ih =>
    intro e queue s run h
    cases levels with
    | zero => cases h
    | succ levels =>
      cases queue with
      | nil => exact h
      | cons n queue => exact attend_mono (ih levels) (ih (levels + 1)) le_rfl h

theorem completeWithin_extends {path : List String} {token : TokenId} {output : Nat}
    (h : completeWithin fuel levels path e token output s = some run) :
    complete fuel path e token output s = some run := by
  induction path generalizing levels e run with
  | nil =>
    cases levels with
    | zero => cases h
    | succ levels => exact h
  | cons head rest ih =>
    cases levels with
    | zero => cases h
    | succ levels =>
      rw [complete_cons]
      exact report_mono ih (driveWithin_extends fuel levels)
        (driveWithin_extends fuel (levels + 1)) le_rfl h

theorem resumeWithin_extends (fuel levels : Nat) :
    Again.Extends (resume fuel) (resumeWithin fuel levels) := by
  induction fuel generalizing levels with
  | zero =>
    intro e s run h
    cases h
  | succ fuel ih =>
    intro e s run h
    cases levels with
    | zero => cases h
    | succ levels =>
      rw [resume_succ]
      exact awaken_mono (ih levels) (driveWithin_extends fuel levels)
        (driveWithin_extends fuel (levels + 1)) le_rfl h

theorem answerWithin_extends {call : Call} (h : answerWithin fuel levels e s call = some run) :
    e.answer fuel s call = some run := by
  cases call with
  | start t =>
    unfold answerWithin at h
    unfold answer startWith
    dsimp only at h ⊢
    generalize e.enter t = entered at h ⊢
    cases entered with
    | error f => exact h
    | ok entered =>
      obtain ⟨last, hlast, rfl⟩ := Option.map_eq_some_iff.1 h
      exact Option.map_eq_some_iff.2 ⟨last, driveWithin_extends fuel levels hlast, rfl⟩
  | complete path token output => exact completeWithin_extends h
  | resume => exact resumeWithin_extends fuel levels h

end RecipeNet.Engine
