import RecipeNet.Proofs.Net.Drawing

/-!
Fuel decides nothing. What is answered with some fuel is answered alike with any more of it,
so that there is at most one answer to whatever a net is asked.
-/

namespace RecipeNet

/-- A way to work off notices that gives every answer of another one. -/
def Drive.Extends (wider drive : Drive) : Prop :=
  ∀ {e queue s run}, drive e queue s = some run → wider e queue s = some run

def Again.Extends (wider again : Engine → Supply → Option Run) : Prop :=
  ∀ {e s run}, again e s = some run → wider e s = some run

variable {drive wider : Drive} {fuel more : Nat}

namespace Nest

variable {nest : Nest} {t : Token} {r : Reaction} {s : Supply} {reacted : Reacted}

theorem settle_mono {next later : Reaction → Token → Supply → Option Reacted} {run : Run}
    (hnext : ∀ r t s reacted, next r t s = some reacted → later r t s = some reacted)
    (h : nest.settle next t run r = some reacted) : nest.settle later t run r = some reacted := by
  unfold settle at h ⊢
  generalize nest.absorb (some (t, run.engine)) false r run.events = absorbed at h ⊢
  obtain ⟨r', running, f | done⟩ := absorbed
  · exact h
  generalize run.result = result at h ⊢
  cases result with
  | error f => exact h
  | ok =>
    dsimp only at h ⊢
    generalize r'.waiting? 0 = waiting at h ⊢
    cases waiting with
    | none => exact h
    | some u =>
      cases done with
      | false => exact h
      | true => exact hnext r' u run.supply reacted h

theorem launch_mono (hdrive : wider.Extends drive) (hle : fuel ≤ more)
    (h : nest.launch drive fuel r t s = some reacted) :
    nest.launch wider more r t s = some reacted := by
  induction fuel generalizing more r t s reacted with
  | zero => cases h
  | succ fuel ih =>
    obtain ⟨more, rfl⟩ : ∃ n, more = n + 1 := ⟨more - 1, by omega⟩
    have hle : fuel ≤ more := by omega
    unfold launch at h ⊢
    generalize r.fire [(0, t)] [] = fired at h ⊢
    obtain ⟨r', f | _ | _⟩ := fired
    · exact h
    · exact h
    generalize Engine.build nest.fitter nest.plan = built at h ⊢
    cases built with
    | error f => exact h
    | ok child =>
      dsimp only at h ⊢
      generalize child.enter (startToken t s).1 = entered at h ⊢
      cases entered with
      | error f => exact h
      | ok entered =>
        obtain ⟨child', notices, events⟩ := entered
        dsimp only at h ⊢
        split at h
        · cases h
        · rename_i run hrun
          rw [hdrive hrun]
          exact settle_mono (fun r t s reacted => ih hle) h

end Nest

theorem Transition.arrive_mono (hdrive : wider.Extends drive) (hle : fuel ≤ more) {tr : Transition}
    {r : Reaction} {input : Nat} {t : Token} {s : Supply} {reacted : Reacted}
    (h : tr.arrive drive fuel r input t s = some reacted) :
    tr.arrive wider more r input t s = some reacted := by
  cases tr with
  | idle nest =>
    unfold arrive at h ⊢
    dsimp only at h ⊢
    by_cases hholds : r.holds input t = true
    · rw [if_pos hholds] at h ⊢
      exact Nest.launch_mono hdrive hle h
    · rw [if_neg hholds] at h ⊢
      exact h
  | _ => exact h

namespace Engine

variable {e : Engine} {s : Supply} {run : Run} {queue : List Notice}
  {again wide : Engine → Supply → Option Run}

theorem andThen_mono (hdrive : wider.Extends drive) {v : Visit}
    (h : v.andThen drive queue = some run) : v.andThen wider queue = some run := by
  unfold Visit.andThen at h ⊢
  generalize v.result = result at h ⊢
  cases result with
  | error f => exact h
  | ok =>
    obtain ⟨later, hlater, rfl⟩ := Option.map_eq_some_iff.1 h
    exact Option.map_eq_some_iff.2 ⟨later, hdrive hlater, rfl⟩

theorem drive_mono (hle : fuel ≤ more) : Drive.Extends (Engine.drive more) (Engine.drive fuel) := by
  induction fuel generalizing more with
  | zero =>
    intro e queue s run h
    cases h
  | succ fuel ih =>
    obtain ⟨more, rfl⟩ : ∃ n, more = n + 1 := ⟨more - 1, by omega⟩
    have hle : fuel ≤ more := by omega
    intro e queue s run h
    cases queue with
    | nil => exact h
    | cons n queue =>
      unfold Engine.drive at h ⊢
      by_cases hrunning : e.status ≠ .running
      · rw [if_pos hrunning] at h ⊢
        exact h
      rw [if_neg hrunning] at h ⊢
      cases hslot : e.slots[n.slot]? with
      | none =>
        rw [hslot] at h
        exact ih hle h
      | some slot =>
        rw [hslot] at h
        dsimp only at h ⊢
        by_cases hactive : slot.phase ≠ .active
        · rw [if_pos hactive] at h ⊢
          exact ih hle h
        rw [if_neg hactive] at h ⊢
        split at h
        · cases h
        · rename_i reacted hreacted
          rw [Transition.arrive_mono (ih hle) hle hreacted]
          exact andThen_mono (ih hle) h

theorem complete_mono (hle : fuel ≤ more) {path : List String} {token : TokenId} {output : Nat}
    (h : complete fuel path e token output s = some run) :
    complete more path e token output s = some run := by
  have hdrive : Drive.Extends (Engine.drive more) (Engine.drive fuel) := drive_mono hle
  induction path generalizing e s run with
  | nil =>
    unfold complete at h ⊢
    exact h
  | cons head rest ih =>
    unfold complete at h ⊢
    by_cases hrunning : e.status ≠ .running
    · rw [if_pos hrunning] at h ⊢
      exact h
    rw [if_neg hrunning] at h ⊢
    dsimp only at h ⊢
    generalize slotIndex? e.slots head = index at h ⊢
    cases index with
    | none => exact h
    | some i =>
      dsimp only at h ⊢
      generalize e.slots[i]? = found at h ⊢
      cases found with
      | none => exact h
      | some slot =>
        dsimp only at h ⊢
        generalize slot.transition = tr at h ⊢
        cases tr with
        | busy nest t child =>
          cases rest with
          | nil => exact andThen_mono hdrive h
          | cons next later =>
            dsimp only at h ⊢
            split at h
            · cases h
            rename_i inner hinner
            rw [ih hinner]
            dsimp only
            split at h
            · cases h
            rename_i reacted hreacted
            rw [Nest.settle_mono (fun r t s reacted => Nest.launch_mono hdrive hle) hreacted]
            exact andThen_mono hdrive h
        | task | idle => cases rest <;> exact andThen_mono hdrive h
        | pass | split | join | routed => exact andThen_mono hdrive h

theorem goOn_mono (hagain : Again.Extends wide again) (hdrive : wider.Extends drive)
    (hle : fuel ≤ more) {slot : Slot} {r : Reaction} {reacted : Reacted}
    (h : goOn again drive fuel slot r s = some reacted) :
    goOn wide wider more slot r s = some reacted := by
  unfold goOn at h ⊢
  generalize slot.transition = tr at h ⊢
  cases tr with
  | busy nest t child =>
    dsimp only at h ⊢
    split at h
    · cases h
    rename_i run hrun
    rw [hagain hrun]
    exact Nest.settle_mono (fun r t s reacted => Nest.launch_mono hdrive hle) h
  | _ => exact h

theorem resumeSlots_mono (hagain : Again.Extends wide again) (hdrive : wider.Extends drive)
    (hle : fuel ≤ more) {rest : List Nat} {v : Visit}
    (h : resumeSlots again drive fuel e s rest = some v) :
    resumeSlots wide wider more e s rest = some v := by
  induction rest generalizing e s v with
  | nil => exact h
  | cons i rest ih =>
    unfold resumeSlots at h ⊢
    by_cases hrunning : e.status ≠ .running
    · rw [if_pos hrunning] at h ⊢
      exact h
    rw [if_neg hrunning] at h ⊢
    generalize e.slots[i]? = found at h ⊢
    cases found with
    | none => exact ih h
    | some slot =>
      dsimp only at h ⊢
      split at h
      · cases h
      rename_i reacted hreacted
      rw [goOn_mono hagain hdrive hle hreacted]
      dsimp only
      generalize e.visited i reacted = visit at h ⊢
      generalize visit.result = result at h ⊢
      cases result with
      | error f => exact h
      | ok =>
        dsimp only at h ⊢
        split at h
        · cases h
        rename_i later hlater
        rw [ih hlater]
        exact h

theorem resume_mono (hle : fuel ≤ more) : Again.Extends (resume more) (resume fuel) := by
  induction fuel generalizing more with
  | zero =>
    intro e s run h
    cases h
  | succ fuel ih =>
    obtain ⟨more, rfl⟩ : ∃ n, more = n + 1 := ⟨more - 1, by omega⟩
    have hle : fuel ≤ more := by omega
    intro e s run h
    unfold resume at h ⊢
    by_cases hpaused : e.status ≠ .paused
    · rw [if_pos hpaused] at h ⊢
      exact h
    rw [if_neg hpaused] at h ⊢
    dsimp only at h ⊢
    split at h
    · cases h
    rename_i v hv
    rw [resumeSlots_mono (ih hle) (drive_mono hle) hle hv]
    dsimp only
    generalize v.result = result at h ⊢
    cases result with
    | error f => exact h
    | ok =>
      obtain ⟨later, hlater, rfl⟩ := Option.map_eq_some_iff.1 h
      exact Option.map_eq_some_iff.2 ⟨later, drive_mono hle hlater, rfl⟩

end Engine
end RecipeNet
