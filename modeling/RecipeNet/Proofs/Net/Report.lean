import RecipeNet.Proofs.Net.Drive

/-!
Reporting that an activity has finished. Either the report suits the net, and
then the token comes out of its task and the net goes on, or it is refused with
one of the faults of a caller and nothing has happened, at whatever depth.
-/

namespace RecipeNet

inductive Fault.OfCaller (output : Nat) : Fault → Prop
  | wrongState (status : Status) : OfCaller output (.wrongState .complete status)
  | unknownStep (id : String) : OfCaller output (.unknownStep id)
  | notAwaiting (step : String) (token : TokenId) : OfCaller output (.notAwaiting step token)
  | noSuchOutput (step : String) (available : Nat) :
    OfCaller output (.noSuchOutput step output available)

theorem Fault.OfCaller.spares {output : Nat} {f : Fault} (h : f.OfCaller output) :
    f.halts = false := by
  cases h <;> rfl

namespace Engine

variable {fitter : Fitter} {e : Engine} {i : Nat} {asleep : List Nat}
  {owed : List (Nat × Token)} {queue : List Notice}

/-- A step may set to work at any time. -/
theorem Alert.setOut (h : e.Alert [] asleep owed queue) : e.Alert [i] asleep owed queue :=
  ⟨{ h.brisk with served := fun j slot _ hat => h.brisk.served j slot List.not_mem_nil hat },
    fun j slot nest t child _ hat ht => h.nested j slot nest t child List.not_mem_nil hat ht⟩

/-- A step that refuses a request leaves the net as it was. -/
theorem visited_refused {slot : Slot} (stands : e.slots[i]? = some slot) {f : Fault}
    (spares : f.halts = false) (s : Supply) :
    e.visited i ⟨e.reaction slot, slot.transition, s, .error f⟩ = ⟨e, [], s, [], .error f⟩ := by
  have hself : e.become i e.holdings slot.transition = e := become_self stands
  have hsame : e.withReacted i ⟨e.reaction slot, slot.transition, s, .error f⟩ = e := hself
  simp only [visited, hsame, halt, spares, Bool.false_eq_true, if_false]
  rfl

theorem andThen_refused {slot : Slot} (stands : e.slots[i]? = some slot) {f : Fault}
    (spares : f.halts = false) (s : Supply) (drive : Drive) :
    (e.visited i ⟨e.reaction slot, slot.transition, s, .error f⟩).andThen drive [] =
      some ⟨e, s, [], .error f⟩ := by
  rw [visited_refused stands spares]
  rfl

/-- A task gives a token it holds to an output, or refuses. -/
theorem release_cases (held : List Token) (activity : String) (r : Reaction) (token : TokenId)
    (output : Nat) (s : Supply) :
    (∃ j t place, held[j]? = some t ∧ t.id = token ∧ r.outputs[output]? = some place ∧
      release held activity r token output s =
        ⟨r.put place t, .task activity (held.eraseIdx j), s, .ok ()⟩) ∨
    ∃ f : Fault, f.OfCaller output ∧
      release held activity r token output s = ⟨r, .task activity held, s, .error f⟩ := by
  unfold release
  cases hfind : held.findIdx? (·.id == token) with
  | none => exact .inr ⟨_, .notAwaiting _ _, rfl⟩
  | some j =>
    obtain ⟨hlt, hid, -⟩ := List.findIdx?_eq_some_iff_getElem.1 hfind
    have hat := List.getElem?_eq_getElem hlt
    simp only [hat]
    cases hproduce : r.produce output held[j] with
    | error f =>
      obtain ⟨-, rfl⟩ := Reaction.produce_error hproduce
      exact .inr ⟨_, .noSuchOutput _ _, rfl⟩
    | ok r' =>
      obtain ⟨place, hplace, rfl⟩ := Reaction.produce_ok hproduce
      exact .inl ⟨j, held[j], place, hat, by simpa using hid, hplace, rfl⟩

/-- A report that a nested net refuses is refused by the net around it. -/
theorem within_refused {slot : Slot} (stands : e.slots[i]? = some slot) {nest : Nest} {t : Token}
    {child : Engine} (busy : slot.transition = .busy nest t child) {f : Fault}
    (spares : f.halts = false) {s : Supply}
    {next : Reaction → Token → Supply → Option Reacted} {reacted : Reacted}
    (hsettle : nest.settle next t ⟨child, s, [], .error f⟩ (e.reaction slot) = some reacted)
    {drive : Drive} {run : Run} (hrun : (e.visited i reacted).andThen drive [] = some run) :
    run = ⟨e, s, [], .error f⟩ := by
  simp only [Nest.settle, Nest.absorb, Nest.transition, Option.some.injEq] at hsettle
  subst hsettle
  rw [← busy, andThen_refused stands spares] at hrun
  exact (Option.some.inj hrun).symm

theorem complete_nil (running : e.status = .running) {fuel : Nat} {token : TokenId} {output : Nat}
    {s : Supply} {run : Run} (hrun : complete fuel [] e token output s = some run) :
    run = ⟨e, s, [], .error (.unknownStep "")⟩ := by
  unfold complete at hrun
  rw [if_neg (not_not.2 running)] at hrun
  exact (Option.some.inj hrun).symm

/-- A report at a running net is refused, or a task of its own releases a token, or the
report is passed on to a nested net. -/
theorem complete_cases (running : e.status = .running) {fuel : Nat} {head : String}
    {rest : List String} {token : TokenId} {output : Nat} {s : Supply} {run : Run}
    (hrun : complete fuel (head :: rest) e token output s = some run) :
    (∃ f : Fault, f.OfCaller output ∧ run = ⟨e, s, [], .error f⟩) ∨
    (∃ (i : Nat) (slot : Slot) (activity : String) (held : List Token) (j : Nat) (t : Token)
        (place : Nat), e.slots[i]? = some slot ∧ slot.transition = .task activity held ∧
      held[j]? = some t ∧ slot.outputs[output]? = some place ∧
      (e.visited i ⟨(e.reaction slot).put place t, .task activity (held.eraseIdx j), s,
        .ok ()⟩).andThen (drive fuel) [] = some run) ∨
    ∃ (i : Nat) (slot : Slot) (nest : Nest) (t : Token) (child : Engine) (inner : Run)
        (reacted : Reacted), e.slots[i]? = some slot ∧ slot.transition = .busy nest t child ∧
      complete fuel rest child token output s = some inner ∧
      nest.settle (nest.launch (drive fuel) fuel) t inner (e.reaction slot) = some reacted ∧
      (e.visited i reacted).andThen (drive fuel) [] = some run := by
  unfold complete at hrun
  rw [if_neg (not_not.2 running)] at hrun
  dsimp only at hrun
  split at hrun
  · exact .inl ⟨_, .unknownStep _, (Option.some.inj hrun).symm⟩
  rename_i i hindex
  split at hrun
  · exact .inl ⟨_, .unknownStep _, (Option.some.inj hrun).symm⟩
  rename_i slot hslot
  split at hrun
  · rename_i activity held htr
    rcases release_cases held activity (e.reaction slot) token output s with
      ⟨j, t, place, hheld, -, hplace, hrelease⟩ | ⟨f, hcaller, hrelease⟩
    · rw [hrelease] at hrun
      exact .inr (.inl ⟨i, slot, activity, held, j, t, place, hslot, htr, hheld, hplace, hrun⟩)
    · rw [hrelease, ← htr, andThen_refused hslot hcaller.spares] at hrun
      exact .inl ⟨f, hcaller, (Option.some.inj hrun).symm⟩
  · rename_i nest t child next more htr
    split at hrun
    · cases hrun
    rename_i inner hinner
    split at hrun
    · cases hrun
    rename_i reacted hsettle
    exact .inr (.inr ⟨i, slot, nest, t, child, inner, reacted, hslot, htr, hinner, hsettle, hrun⟩)
  · rename_i nest next more htr
    rw [← htr, andThen_refused hslot rfl] at hrun
    exact .inl ⟨_, .notAwaiting _ _, (Option.some.inj hrun).symm⟩
  · rw [andThen_refused hslot rfl] at hrun
    exact .inl ⟨_, .notAwaiting _ _, (Option.some.inj hrun).symm⟩

end Engine

namespace Station

variable {fitter : Fitter} {w : Station}

/-- A task that has given back a token is still served. -/
theorem Ready.fine_released (hw : w.Ready fitter)
    (calm : w.scene.engine.Alert [] w.asleep w.owed w.queue) {activity : String}
    {held : List Token} (htr : w.slot.transition = .task activity held) {j output place : Nat}
    {t : Token} (isHeld : held[j]? = some t) (target : w.slot.outputs[output]? = some place) :
    w.Fine ⟨(w.scene.engine.reaction w.slot).put place t, .task activity (held.eraseIdx j),
      w.scene.supply, .ok ()⟩ := by
  have hstart := hw.start calm.setOut
  rw [htr] at hstart
  have hknown : t ∈ w.scene.lore := by
    refine hw.sound.informed.steps _ (List.mem_of_getElem? hw.stands) t ?_
    rw [htr]
    exact List.mem_of_getElem? isHeld
  have act : Act ⟨w.engine (w.scene.engine.reaction w.slot) (.task activity held),
      w.scene.supply, w.scene.lore⟩ [] ⟨(w.engine (w.scene.engine.reaction w.slot)
        (.task activity held)).become w.i (w.scene.engine.holdings.modify place (·.add t))
        (.task activity (held.eraseIdx j)), w.scene.supply, w.scene.lore⟩ :=
    .released hstart.running (hw.stands_now _ (.task activity held)) rfl isHeld target
  have hcourse : Course ⟨w.engine (w.scene.engine.reaction w.slot) (.task activity held),
      w.scene.supply, w.scene.lore⟩ [] ⟨w.engine ((w.scene.engine.reaction w.slot).put place t)
        (.task activity (held.eraseIdx j)), w.scene.supply, w.scene.lore⟩ := by
    have hone := Course.of_act act
    simp only [engine, Engine.become_become] at hone ⊢
    exact hone
  have hgrows := fun x => stock_add w.scene.engine.holdings place t x
  have hput := hstart.advance [(place, t)] (Reaction.put_follows _ place t) hcourse
    (List.append_nil _).symm rfl (List.forall_mem_singleton.2 hknown) hgrows
  refine hput.fine hw (fun _ k p hk id => ?_) fun _ _ _ hbusy => by cases hbusy
  have hserved := calm.brisk.served w.i w.slot List.not_mem_nil hw.stands
    (by rw [htr]; rfl) k p hk id
  have hadd := hgrows (p, id)
  change (stock (w.scene.engine.holdings.modify place (·.add t))).count (p, id) ≤
    _ + (entries (w.owed ++ [(place, t)])).count (p, id)
  rw [entries_append, Multiset.count_add]
  omega

end Station

namespace Engine

variable {fitter : Fitter}

theorem complete_proper (hf : fitter.Regular) {fuel : Nat} {token : TokenId} {output : Nat}
    (path : List String) {sc : Scene} (hsound : sc.Sound fitter) (hawake : sc.engine.Awake)
    {run : Run} (hrun : complete fuel path sc.engine token output sc.supply = some run) :
    run.Proper sc ∨
      ∃ f : Fault, f.OfCaller output ∧ run = ⟨sc.engine, sc.supply, [], .error f⟩ := by
  have hd := drive_proper hf fuel
  induction path generalizing sc run with
  | nil => exact .inr ⟨_, .unknownStep _, complete_nil hawake.here.running hrun⟩
  | cons head rest ih =>
    have hrunning := hawake.here.running
    rcases complete_cases hrunning hrun with hrefused |
      ⟨i, slot, activity, held, j, t, place, hslot, htr, hheld, hplace, hafter⟩ |
      ⟨i, slot, nest, t, child, inner, reacted, hslot, htr, hinner, hsettle, hafter⟩
    · exact .inr hrefused
    · have hw : Station.Ready fitter ⟨sc, i, slot, [], [], []⟩ := ⟨hsound, hslot⟩
      have hfine := hw.fine_released hawake.alert htr hheld hplace
      exact .inl ((hfine.visited hrunning).andThen hf hd hsound (List.forall_mem_nil _) hafter)
    · have hw : Station.Ready fitter ⟨sc, i, slot, [], [], []⟩ := ⟨hsound, hslot⟩
      have hmem := List.mem_of_getElem? hslot
      have hchild : child.Awake := hawake.child hmem htr
      rcases @ih ⟨child, sc.supply, sc.lore.below slot.step⟩ (hsound.child hmem htr) hchild inner
        hinner with hproper | ⟨f, hcaller, rfl⟩
      · have hstart := hw.start hawake.alert.setOut
        dsimp only at hstart
        rw [htr] at hstart
        have hfine := hstart.fine_settle hf hw List.not_mem_nil hchild.not_completed hproper
          (fun r' waiting s' lore' hidle hheld hlore hagain =>
            hidle.fine_launch hf hd hw List.not_mem_nil fuel hheld hlore hagain) hsettle
        exact .inl ((hfine.visited hrunning).andThen hf hd hsound (List.forall_mem_nil _) hafter)
      · exact .inr ⟨f, hcaller, within_refused hslot htr hcaller.spares hsettle hafter⟩

end Engine
end RecipeNet
