import RecipeNet.Proofs.Net.Handling
import RecipeNet.Proofs.Net.Resume

/-!
What operations do with the tokens of a net, whatever its steps are fitted with and however
the operation ends. An operation does what its steps do one after the other, and a fault is the
last thing that comes of it. If the net has ended with it, the operation has ended well, so
a step that takes note of the end of its nested net has had no mishap before.
-/

namespace RecipeNet

namespace Engine

variable {e : Engine} {i : Nat} {slot : Slot} {reacted : Reacted} {run : Run}

theorem works (running : e.status = .running) (stands : e.slots[i]? = some slot)
    (founded : e.Throughout Founded) : (e.reaction slot).Works e i slot :=
  ⟨running, stands, ⟨rfl, rfl, rfl, rfl⟩, founded⟩

/-- What a step has done with the tokens of its net its net has done. -/
theorem visited_keeps (running : e.status = .running)
    (h : (e.reaction slot).Keeps e i reacted.reaction reacted.transition reacted.result) :
    e.Concludes (e.visited i reacted).events (e.visited i reacted).engine
      (e.visited i reacted).result := by
  obtain ⟨r, tr, s, result⟩ := reacted
  obtain ⟨events, hevents, hkeeps⟩ := h.told
  obtain rfl : r.events = events := hevents
  have hrunning : (e.become i r.holdings tr).status = .running := running
  cases result with
  | error f =>
    refine ⟨hkeeps.silent_last (.halted hrunning), fun event he hfinal => ?_⟩
    obtain ⟨changes, loss, hdealings, -⟩ := hkeeps
    rcases hdealings.ending with ⟨front, place, u, -, -, hstatus, -⟩ | hquiet
    · cases hrunning.symm.trans hstatus
    · exact absurd hfinal (hquiet event he)
  | ok u => exact ⟨hkeeps.trans (acceptAll_keeps _ r.produced), fun _ _ _ => rfl⟩

theorem andThen_keeps {drive : Drive} (hd : drive.Keeps) (founded : e.Throughout Founded) {v : Visit}
    (hv : e.Concludes v.events v.engine v.result) {queue : List Notice}
    (hrun : v.andThen drive queue = some run) : e.Concludes run.events run.engine run.result := by
  obtain ⟨hkept, hended⟩ := hv
  unfold Visit.andThen at hrun
  cases hresult : v.result with
  | error f =>
    rw [hresult] at hkept hended hrun
    obtain rfl := Option.some.inj hrun
    exact ⟨hkept, hended⟩
  | ok u =>
    rw [hresult] at hkept hrun
    obtain ⟨rest, hrest, rfl⟩ := Option.map_eq_some_iff.1 hrun
    obtain ⟨hkeeps, hover⟩ := hd _ _ _ rest (hkept.founded founded) hrest
    exact .after hkept hkeeps hover

theorem drive_keeps (fuel : Nat) : Drive.Keeps (drive fuel) := by
  induction fuel with
  | zero =>
    intro e queue s run _ hrun
    cases hrun
  | succ fuel ih =>
    intro e queue s run founded hrun
    cases queue with
    | nil =>
      obtain rfl := Option.some.inj hrun
      exact ⟨.refl e _, fun _ => rfl⟩
    | cons n queue =>
      simp only [drive] at hrun
      split at hrun
      · obtain rfl := Option.some.inj hrun
        exact ⟨.refl e _, fun _ => rfl⟩
      rename_i hstatus
      have hrunning := not_not.1 hstatus
      split at hrun
      · exact ih _ _ _ _ founded hrun
      rename_i slot hslot
      split at hrun
      · exact ih _ _ _ _ founded hrun
      split at hrun
      · cases hrun
      rename_i reacted harrive
      have hreacted := Transition.arrive_keeps ih (works hrunning hslot founded) harrive
      refine ⟨andThen_keeps ih founded (visited_keeps hrunning hreacted) hrun, fun hcompleted => ?_⟩
      cases hrunning.symm.trans hcompleted

/-- A task puts a token that it holds into a place. -/
theorem releases (running : e.status = .running) (stands : e.slots[i]? = some slot)
    (founded : e.Throughout Founded) {activity : String} {held : List Token}
    (task : slot.transition = .task activity held) {j place output : Nat} {t : Token}
    (isHeld : held[j]? = some t) (target : slot.outputs[output]? = some place) :
    (e.reaction slot).Keeps e i ((e.reaction slot).put place t)
      (.task activity (held.eraseIdx j)) (.ok ()) := by
  have hw := works running stands founded
  have hfollows := Reaction.put_follows (e.reaction slot) place t
  have hids : {t.id} + (Transition.task activity (held.eraseIdx j)).ids = slot.transition.ids := by
    obtain ⟨hlt, rfl⟩ := List.getElem?_eq_some_iff.1 isHeld
    rw [task, Multiset.singleton_add]
    exact Multiset.coe_eq_coe.2 ((List.getElem_cons_eraseIdx_perm hlt).map Token.id)
  have hmoved : Dealing e [] [] (e.become i ((e.reaction slot).put place t).holdings
      (.task activity (held.eraseIdx j))) := by
    refine .moved running stands (by rw [task]; trivial) (by trivial) (by rw [task]; rfl)
      (hw.places hfollows) (List.forall_mem_nil _) (ids_kept stands ?_)
    rw [Reaction.put_ids t (hw.outputs_lt place (List.mem_of_getElem? target)), add_assoc, hids]
    rfl
  exact ⟨hfollows, [], (List.append_nil _).symm, .of_dealing hmoved _⟩

/-- Whatever comes of a report of an activity. -/
theorem complete_keeps {fuel : Nat} {path : List String} {token : TokenId} {output : Nat} {s : Supply}
    (founded : e.Throughout Founded) (hrun : complete fuel path e token output s = some run) :
    e.Concludes run.events run.engine run.result := by
  have hd := drive_keeps fuel
  induction path generalizing e run with
  | nil =>
    by_cases hrunning : e.status = .running
    · rw [complete_nil hrunning hrun]
      exact .refl e _
    · unfold complete at hrun
      rw [if_pos hrunning] at hrun
      obtain rfl := Option.some.inj hrun
      exact .refl e _
  | cons head rest ih =>
    by_cases hrunning : e.status = .running
    · rcases complete_cases hrunning hrun with ⟨f, -, rfl⟩ |
        ⟨i, slot, activity, held, j, t, place, hslot, htask, hheld, htarget, hlater⟩ |
        ⟨i, slot, nest, t, child, inner, reacted, hslot, hbusy, hinner, hsettle, hlater⟩
      · exact .refl e _
      · have hreacted := releases hrunning hslot founded htask hheld htarget
        exact andThen_keeps hd founded (visited_keeps hrunning hreacted) hlater
      · have hchild := ih (founded.child (List.mem_of_getElem? hslot) hbusy) hinner
        have hreacted := Nest.settle_keeps (works hrunning hslot founded) hbusy hchild
          (fun hw idle h => nest.launch_keeps hd hw idle h) hsettle
        exact andThen_keeps hd founded (visited_keeps hrunning hreacted) hlater
    · unfold complete at hrun
      rw [if_pos hrunning] at hrun
      obtain rfl := Option.some.inj hrun
      exact .refl e _

def Again.Keeps (again : Engine → Supply → Option Run) : Prop :=
  ∀ (e : Engine) (s : Supply) (run : Run), e.Throughout Founded → again e s = some run →
    e.Concludes run.events run.engine run.result

variable {again : Engine → Supply → Option Run}

/-- However a step goes on. -/
theorem goOn_keeps {drive : Drive} (hd : drive.Keeps) (ha : Again.Keeps again) {fuel : Nat}
    {s : Supply} (running : e.status = .running) (stands : e.slots[i]? = some slot)
    (founded : e.Throughout Founded)
    (hgo : goOn again drive fuel slot (e.reaction slot) s = some reacted) :
    (e.reaction slot).Keeps e i reacted.reaction reacted.transition reacted.result := by
  have hw := works running stands founded
  unfold goOn at hgo
  split at hgo
  · rename_i activity held htask
    obtain rfl := Option.some.inj hgo
    rw [announce_all]
    refine hw.reports rfl (by rw [htask]; trivial) fun event he => ?_
    obtain ⟨t, -, rfl⟩ := List.mem_map.1 he
    exact .started [] activity t
  · rename_i nest t child hbusy
    split at hgo
    · cases hgo
    rename_i run hrun
    have hchild := ha child s run (founded.child (List.mem_of_getElem? stands) hbusy) hrun
    exact Nest.settle_keeps hw hbusy hchild (fun hw idle h => nest.launch_keeps hd hw idle h) hgo
  · obtain rfl := Option.some.inj hgo
    exact hw.idles rfl _

/-- However the steps go on in turn. -/
theorem resumeSlots_keeps {drive : Drive} (hd : drive.Keeps) (ha : Again.Keeps again) {fuel : Nat}
    {rest : List Nat} {s : Supply} {v : Visit} (founded : e.Throughout Founded)
    (hrun : resumeSlots again drive fuel e s rest = some v) :
    e.Concludes v.events v.engine v.result ∧ (e.status = .completed → v.result = .ok ()) := by
  induction rest generalizing e s v with
  | nil =>
    obtain rfl := Option.some.inj hrun
    exact ⟨.refl e _, fun _ => rfl⟩
  | cons i rest ih =>
    unfold resumeSlots at hrun
    split at hrun
    · obtain rfl := Option.some.inj hrun
      exact ⟨.refl e _, fun _ => rfl⟩
    rename_i hstatus
    have hrunning := not_not.1 hstatus
    refine ⟨?_, fun hcompleted => by cases hrunning.symm.trans hcompleted⟩
    split at hrun
    · exact (ih founded hrun).1
    rename_i slot hslot
    split at hrun
    · cases hrun
    rename_i reacted hgo
    have hv := visited_keeps hrunning (goOn_keeps hd ha hrunning hslot founded hgo)
    dsimp only at hrun
    cases hresult : (e.visited i reacted).result with
    | error f =>
      simp only [hresult] at hrun
      obtain rfl := Option.some.inj hrun
      exact hresult ▸ hv
    | ok u =>
      simp only [hresult] at hrun
      split at hrun
      · cases hrun
      rename_i later hlater
      obtain rfl := Option.some.inj hrun
      have hkept := hv.kept
      rw [hresult] at hkept
      obtain ⟨hkeeps, hover⟩ := ih (hkept.founded founded) hlater
      exact .after hkept hkeeps hover

theorem resume_keeps (fuel : Nat) : Again.Keeps (resume fuel) := by
  induction fuel with
  | zero =>
    intro e s run _ hrun
    cases hrun
  | succ fuel ih =>
    intro e s run founded hrun
    by_cases hpaused : e.status = .paused
    · have hwoken : e.Keeps [] { e.activate with status := .running } (.ok ()) :=
        .of_dealing (.woken hpaused) _
      have hd := drive_keeps fuel
      obtain ⟨v, hv, hcases⟩ := resume_cases hpaused hrun
      obtain ⟨hslots, -⟩ := resumeSlots_keeps hd ih (hwoken.founded founded) hv
      rcases hcases with ⟨f, hresult, rfl⟩ | ⟨hresult, last, hlast, rfl⟩
      · exact .after hwoken (hresult ▸ hslots) nofun
      · have hgone := hwoken.trans (hresult ▸ hslots.kept)
        have haccepted := hgone.trans (acceptAll_keeps v.engine e.held)
        obtain ⟨hkeeps, hover⟩ := hd _ _ _ last (haccepted.founded founded) hlast
        exact .after haccepted hkeeps hover
    · unfold resume at hrun
      rw [if_pos hpaused] at hrun
      obtain rfl := Option.some.inj hrun
      exact .refl e _

end Engine

end RecipeNet
