import RecipeNet.Proofs.Attention

/-!
How joins come to be settled. Whatever a cascade tells them is heeded before it ends;
a nested net settles before it is left.
-/

namespace RecipeNet

/-- A run that ends well ends the net or leaves it settled. -/
def Run.Settles (run : Run) : Prop :=
  run.result = .ok () → run.engine.status = .completed ∨ run.engine.Throughout Engine.Settled

def Drive.Settling (fitter : Fitter) (last : Supply) (drive : Drive) : Prop :=
  ∀ (sc : Scene) (queue : List Engine.Notice) (run : Run), sc.Tidy fitter last →
    (sc.engine.status = .completed ∨
      sc.engine.Alert [] [] [] queue ∧ sc.engine.Heedful [] [] queue) →
    (∀ n ∈ queue, n.token ∈ sc.lore) → drive sc.engine queue sc.supply = some run →
    run.supply.used ≤ last.used → run.Settles

def Reacted.Lodges (reacted : Reacted) : Prop :=
  ∀ nest t child, reacted.transition = .busy nest t child → child.Throughout Engine.Settled

/-- Taking note of tokens is settling if what they are owed for is heeded. -/
theorem Engine.accepted_settling {e : Engine} {made : List (Nat × Token)} {asleep : List Nat}
    {owed : List (Nat × Token)} {queue : List Engine.Notice}
    (halert : e.Alert [] asleep (owed ++ made) queue) (hheeds : e.Heedful [] (owed ++ made) queue) :
    (e.acceptAll made).1.status = .completed ∨
      (e.acceptAll made).1.Alert [] asleep owed (queue ++ (e.acceptAll made).2.1) ∧
      (e.acceptAll made).1.Heedful [] owed (queue ++ (e.acceptAll made).2.1) := by
  by_cases hstill : (e.acceptAll made).1.status = .completed
  · exact .inl hstill
  · exact .inr ⟨halert.accepted.resolve_left hstill,
      hheeds.accepted halert.brisk.running hstill⟩

namespace Station

variable {fitter : Fitter} {last : Supply} {w : Station} {r : Reaction} {tr : Transition}
  {s : Supply} {lore : Lore} {nest : Nest} {t : Token} {child : Engine} {reacted : Reacted}
  {drive : Drive}

/-- A step that has worked leaves a net whose joins heed what they are told, if it is
itself no join or such a one. -/
theorem Underway.heedful (hw : w.Ready fitter) (h : w.Underway r tr s lore)
    (heeds : w.scene.engine.Heedful [w.i] w.owed w.queue)
    (joins : w.scene.engine.plan.Reserved → w.scene.engine.plan.Gathers →
      ({ w.slot with transition := tr } : Slot).Heeds r.holdings
        (Engine.due w.i (w.owed ++ r.produced) w.queue))
    (lodges : ∀ nest t child, tr = .busy nest t child → child.Throughout Engine.Settled) :
    (w.engine r tr).Heedful [] (w.owed ++ r.produced) w.queue :=
  (heeds.work tr h.grows).finish (hw.stands_now r tr) joins lodges

theorem Underway.heedful_other (hw : w.Ready fitter) (h : w.Underway r tr s lore)
    (heeds : w.scene.engine.Heedful [w.i] w.owed w.queue)
    (other : ∀ inputs pending, w.slot.transition ≠ .join inputs pending)
    (lodges : ∀ nest t child, tr = .busy nest t child → child.Throughout Engine.Settled) :
    (w.engine r tr).Heedful [] (w.owed ++ r.produced) w.queue := by
  refine h.heedful hw heeds (fun _ _ inputs pending hjoin => ?_) lodges
  have houtline := hw.outline_eq h.course (hw.stands_now r tr)
  dsimp only at hjoin
  rw [hjoin] at houtline
  cases htr : w.slot.transition with
  | join inputs' pending' => exact absurd htr (other inputs' pending')
  | _ =>
    rw [htr] at houtline
    cases houtline

/-- What follows an operation on the nested net leaves a settled net within. -/
theorem Underway.lodges_settle (hf : fitter.Regular) (hw : w.Ready fitter)
    (h : w.Underway r (.busy nest t child) s lore) (hopen : child.status ≠ .completed) {run : Run}
    (hrun : run.Proper ⟨child, s, lore.below w.slot.step⟩)
    (hsettles : run.supply.used ≤ last.used → run.Settles)
    {next : Reaction → Token → Supply → Option Reacted}
    (hnext : ∀ r' waiting s' lore', w.Underway r' (.idle nest) s' lore' →
      r'.holds 0 waiting = true → waiting ∈ lore' → next r' waiting s' = some reacted →
      reacted.Lodges)
    (hsettle : nest.settle next t run r = some reacted) (hle : reacted.supply.used ≤ last.used)
    (hok : reacted.result = .ok ()) : reacted.Lodges := by
  rcases h.settles hf hw hopen hrun hsettle with
    ⟨r', s', lore', hidle, ⟨waiting, hheld, hlore, hagain⟩ | ⟨-, rfl⟩⟩ |
    ⟨r', lore', -, hstill, rfl⟩
  · exact hnext r' waiting s' lore' hidle hheld hlore hagain
  · exact fun nest' t' child' hbusy => by cases hbusy
  · intro nest' t' child' hbusy
    cases hbusy
    exact (hsettles hle hok).resolve_left hstill

/-- A net that is launched settles. -/
theorem Underway.lodges_launch (hf : fitter.Regular) (hd : drive.Proper fitter)
    (hs : drive.Settling fitter last) (hw : w.Ready fitter) (htidy : w.scene.Tidy fitter last)
    (fuel : Nat) (h : w.Underway r (.idle nest) s lore) (held : r.holds 0 t = true)
    (known : t ∈ lore) (hlaunch : nest.launch drive fuel r t s = some reacted)
    (hle : reacted.supply.used ≤ last.used) (hok : reacted.result = .ok ()) : reacted.Lodges := by
  refine h.launch_induction hf hw ?_ fuel held known hlaunch
  intro fuel t child start r s lore run hlaunched hnext hsettle
  have hrun := hlaunched.proper hf hd hw
  refine hlaunched.underway.lodges_settle hf hw (fun hcompleted => by cases hcompleted) hrun
    (fun hlast => ?_) hnext hsettle hle hok
  obtain ⟨_, hwhole⟩ := hrun.course
  have hused := hwhole.used_le.trans hlast
  have htidy' := (hlaunched.underway.course.tidy hf hused htidy).child
    (List.mem_of_getElem? (hw.stands_now r (.busy nest t (child.entered start)))) rfl
  have halert : (child.entered start).Alert [] [] ([] ++ [(child.startPlace, start)]) [] :=
    hlaunched.built.alert_entered start
  have hheeds : (child.entered start).Heedful [] ([] ++ [(child.startPlace, start)]) [] :=
    hlaunched.built.heedful_entered start
  exact hs _ _ run (hlaunched.course.tidy hf hused htidy')
    (Engine.accepted_settling halert hheeds) (Engine.notices_known hlaunched.made)
    hlaunched.drives hlast

/-- A step that neither joins nor runs a nested plan leaves joins heedful. -/
theorem Underway.heedful_plain (hw : w.Ready fitter) (h : w.Underway r tr s lore)
    (heeds : w.scene.engine.Heedful [w.i] w.owed w.queue)
    (other : ∀ inputs pending, w.slot.transition ≠ .join inputs pending)
    (plain : ∀ nest, w.slot.transition.outline ≠ .idle nest) :
    (w.engine r tr).Heedful [] (w.owed ++ r.produced) w.queue := by
  refine h.heedful_other hw heeds other fun nest t child hbusy => absurd ?_ (plain nest)
  rw [← hw.outline_eq h.course (hw.stands_now r tr), hbusy]
  rfl

/-- What becomes of a notice, whatever the step is. -/
theorem Ready.heeds_arrive (hf : fitter.Regular) (hd : drive.Proper fitter)
    (hs : drive.Settling fitter last) (hw : w.Ready fitter) (hawake : w.i ∉ w.asleep)
    (htidy : w.scene.Tidy fitter last) {fuel k : Nat}
    (calm : w.scene.engine.Alert [] w.asleep w.owed (⟨w.i, k, t⟩ :: w.queue))
    (heeds : w.scene.engine.Heedful [] w.owed (⟨w.i, k, t⟩ :: w.queue))
    (known : t ∈ w.scene.lore)
    (harrive : w.slot.transition.arrive drive fuel (w.scene.engine.reaction w.slot) k t
      w.scene.supply = some reacted)
    (hle : reacted.supply.used ≤ last.used) (hok : reacted.result = .ok ()) :
    (w.engine reacted.reaction reacted.transition).Heedful []
      (w.owed ++ reacted.reaction.produced) w.queue := by
  obtain ⟨lore, hunder, -⟩ := (hw.arrive hf hd hawake calm known harrive).ok hok
  have hattend : w.scene.engine.Heedful [w.i] w.owed w.queue := heeds.attend
  have hmem := List.mem_of_getElem? hw.stands
  cases htr : w.slot.transition with
  | pass | split | task | routed =>
    exact hunder.heedful_plain hw hattend (fun _ _ hjoin => by cases htr.symm.trans hjoin)
      (fun _ hidle => by rw [htr] at hidle; cases hidle)
  | join inputs pending =>
    rw [htr] at harrive
    simp only [Transition.arrive, Option.some.injEq] at harrive
    subst harrive
    refine hunder.heedful hw hattend (fun hplan hgathers => ?_) fun _ _ _ hbusy => by cases hbusy
    refine htidy.heeds_join hf hplan hgathers hmem htr
      (heeds.joins hplan hgathers w.i w.slot List.not_mem_nil hw.stands) ?_
    dsimp only at hok
    rw [← hok]
    exact Join.arrives pending (w.scene.engine.reaction w.slot) k t
  | idle nest =>
    refine hunder.heedful_other hw hattend (fun _ _ hjoin => by cases htr.symm.trans hjoin) ?_
    rw [htr] at harrive
    rcases hw.idle_cases hf calm htr harrive with ⟨-, rfl⟩ | ⟨hstart, hheld, hlaunch⟩
    · exact fun _ _ _ hbusy => by cases hbusy
    · exact hstart.lodges_launch hf hd hs hw htidy fuel hheld known hlaunch hle hok
  | busy nest u child =>
    refine hunder.heedful_other hw hattend (fun _ _ hjoin => by cases htr.symm.trans hjoin) ?_
    simp only [htr, Transition.arrive, Option.some.injEq] at harrive
    subst harrive
    intro nest' u' child' hbusy
    cases hbusy
    exact heeds.nested w.i w.slot nest u child List.not_mem_nil hw.stands htr

/-- What follows a visit that is heeded settles. -/
theorem Fine.settles (hf : fitter.Regular) (hd : drive.Proper fitter)
    (hs : drive.Settling fitter last) (hw : w.Ready fitter) (hfine : w.Fine reacted)
    (rested : w.asleep = [] ∧ w.owed = []) (htidy : w.scene.Tidy fitter last)
    (running : w.scene.engine.status = .running)
    (heeds : reacted.result = .ok () → reacted.supply.used ≤ last.used →
      (w.engine reacted.reaction reacted.transition).Heedful []
        (w.owed ++ reacted.reaction.produced) w.queue)
    (hqueue : ∀ n ∈ w.queue, n.token ∈ w.scene.lore) {run : Run}
    (hrun : (w.scene.engine.visited w.i reacted).andThen drive w.queue = some run)
    (hle : run.supply.used ≤ last.used) : run.Settles := by
  have hvisited := hfine.visited running
  rw [rested.1, rested.2] at hvisited
  obtain ⟨lore, hcourse, hnotices⟩ := hvisited.course
  obtain ⟨r, tr, s, result⟩ := reacted
  cases result with
  | error f =>
    have hfailed := Option.some.inj hrun
    intro hok
    rw [← hfailed] at hok
    cases hok
  | ok u =>
    obtain ⟨after, hunder, halert⟩ := hfine.ok rfl
    obtain ⟨rest, hrest, rfl⟩ := Option.map_eq_some_iff.1 hrun
    have hknown : ∀ n ∈ w.queue ++ (w.scene.engine.visited w.i ⟨r, tr, s, .ok ()⟩).notices,
        n.token ∈ lore := by
      intro n hn
      rcases List.mem_append.1 hn with hold | hnew
      · exact hcourse.lore_mono (hqueue n hold)
      · exact hnotices n hnew
    have hproper := hd ⟨_, _, lore⟩ _ rest (hcourse.sound hf hw.sound) (hvisited.ok rfl) hknown hrest
    obtain ⟨lore', hlater⟩ := hproper.course
    have hused : s.used ≤ last.used := hlater.used_le.trans hle
    have hready := Engine.accepted_settling halert (heeds rfl hused)
    rw [rested.1, rested.2] at hready
    exact hs ⟨_, _, lore⟩ _ rest (hcourse.tidy hf hused htidy) hready hknown hrest hle

end Station

namespace Engine

variable {fitter : Fitter} {last : Supply}

/-- Working off notices settles a net. -/
theorem drive_settling (hf : fitter.Regular) (fuel : Nat) :
    Drive.Settling fitter last (drive fuel) := by
  induction fuel with
  | zero =>
    intro sc queue run _ _ _ hrun
    cases hrun
  | succ fuel ih =>
    intro sc queue run htidy hready hqueue hrun hle
    rcases drive_cases (hready.imp id And.left) hrun with ⟨rfl, hend⟩ |
      ⟨n, rest, rfl, hcalm, hcases⟩
    · rcases hend with hcompleted | rfl
      · exact fun _ => .inl hcompleted
      · exact fun _ => hready.imp id fun h => h.2.settled
    · have hheeds := (hready.resolve_left fun h => by
        cases hcalm.brisk.running.symm.trans h).2
      have hrest : ∀ m ∈ rest, m.token ∈ sc.lore := fun m hm =>
        hqueue m (List.mem_cons_of_mem _ hm)
      rcases hcases with ⟨hnone, hlater⟩ | ⟨slot, reacted, hslot, harrive, hlater⟩
      · exact ih sc rest run htidy (.inr ⟨hcalm.drop hnone, hheeds.drop hnone⟩) hrest hlater hle
      · have hw : Station.Ready fitter ⟨sc, n.slot, slot, [], [], rest⟩ :=
          ⟨htidy.steadfast.sound, hslot⟩
        have hd := drive_proper hf fuel
        have hknown := hqueue n List.mem_cons_self
        have hfine := hw.arrive hf hd List.not_mem_nil hcalm hknown harrive
        refine hfine.settles hf hd ih hw ⟨rfl, rfl⟩ htidy hcalm.brisk.running (fun hok hused => ?_)
          hrest hlater hle
        exact hw.heeds_arrive hf hd ih List.not_mem_nil htidy hcalm hheeds hknown harrive hused hok

theorem startWith_settles (hf : fitter.Regular) {fuel : Nat} {e : Engine} {t : Token} {s : Supply}
    {lore : Lore} (hb : e.Built fitter e.plan) (htidy : Scene.Tidy fitter last ⟨e.entered t, s, lore⟩)
    (known : t ∈ lore) {run : Run} (hrun : startWith fuel e t s = some run)
    (hle : run.supply.used ≤ last.used) : run.Settles := by
  have hmade : ∀ x ∈ [(e.startPlace, t)], x.2 ∈ lore := List.forall_mem_singleton.2 known
  have halert : (e.entered t).Alert [] [] ([] ++ [(e.startPlace, t)]) [] := hb.alert_entered t
  have hheeds : (e.entered t).Heedful [] ([] ++ [(e.startPlace, t)]) [] := hb.heedful_entered t
  have hcourse : Course ⟨e.entered t, s, lore⟩ _ _ := acceptAll_course hmade
  simp only [startWith, enter_created hb.status] at hrun
  obtain ⟨rest, hrest, rfl⟩ := Option.map_eq_some_iff.1 hrun
  obtain ⟨_, hlater⟩ := (drive_proper hf fuel _ _ rest (hcourse.sound hf htidy.steadfast.sound)
    halert.accepted (notices_known hmade) hrest).course
  exact drive_settling hf fuel _ _ rest (hcourse.tidy hf (hlater.used_le.trans hle) htidy)
    (accepted_settling halert hheeds) (notices_known hmade) hrest hle

/-- A refusal is no run that ends well. -/
theorem settles_error {e : Engine} {s : Supply} {events : List Event} {f : Fault} :
    Run.Settles ⟨e, s, events, .error f⟩ := fun hok => by cases hok

/-- A net at rest settles again when an activity of its own gives a token back. -/
theorem settles_released (hf : fitter.Regular) {fuel : Nat} {sc : Scene} {i j place : Nat}
    {slot : Slot} {activity : String} {held : List Token} {t : Token}
    (htidy : sc.Tidy fitter last) (calm : sc.engine.Alert [] [] [] [])
    (heeds : sc.engine.Heedful [i] [] []) (running : sc.engine.status = .running)
    (hslot : sc.engine.slots[i]? = some slot) (htr : slot.transition = .task activity held)
    (hheld : held[j]? = some t) {output : Nat} (hplace : slot.outputs[output]? = some place)
    {run : Run} (hrun : (sc.engine.visited i ⟨(sc.engine.reaction slot).put place t,
      .task activity (held.eraseIdx j), sc.supply, .ok ()⟩).andThen (drive fuel) [] = some run)
    (hle : run.supply.used ≤ last.used) : run.Settles := by
  have hw : Station.Ready fitter ⟨sc, i, slot, [], [], []⟩ := ⟨htidy.steadfast.sound, hslot⟩
  have hfine := hw.fine_released calm htr hheld hplace
  refine hfine.settles hf (drive_proper hf fuel) (drive_settling hf fuel) hw ⟨rfl, rfl⟩ htidy
    running (fun hok _ => ?_) (List.forall_mem_nil _) hrun hle
  obtain ⟨lore, hunder, -⟩ := hfine.ok hok
  exact hunder.heedful_plain hw heeds (fun _ _ hjoin => by cases htr.symm.trans hjoin)
    (fun _ hidle => by dsimp only at hidle; rw [htr] at hidle; cases hidle)

/-- A net at rest settles again when a net within has gone on, if that one settles. -/
theorem settles_within (hf : fitter.Regular) {fuel : Nat} {sc : Scene} {i : Nat} {slot : Slot}
    {nest : Nest} {t : Token} {child : Engine} (htidy : sc.Tidy fitter last)
    (calm : sc.engine.Alert [] [] [] []) (heeds : sc.engine.Heedful [i] [] [])
    (running : sc.engine.status = .running) (hslot : sc.engine.slots[i]? = some slot)
    (htr : slot.transition = .busy nest t child) (hopen : child.status ≠ .completed) {inner : Run}
    (hproper : inner.Proper ⟨child, sc.supply, sc.lore.below slot.step⟩)
    (hinner : inner.supply.used ≤ last.used → inner.Settles) {reacted : Reacted}
    (hsettle : nest.settle (nest.launch (drive fuel) fuel) t inner (sc.engine.reaction slot) =
      some reacted)
    {run : Run} (hrun : (sc.engine.visited i reacted).andThen (drive fuel) [] = some run)
    (hle : run.supply.used ≤ last.used) : run.Settles := by
  have hd := drive_proper hf fuel
  have hs : Drive.Settling fitter last (drive fuel) := drive_settling hf fuel
  have hw : Station.Ready fitter ⟨sc, i, slot, [], [], []⟩ := ⟨htidy.steadfast.sound, hslot⟩
  have hstart := hw.start calm.setOut
  dsimp only at hstart
  rw [htr] at hstart
  have hfine := hstart.fine_settle hf hw List.not_mem_nil hopen hproper
    (fun r' waiting s' lore' hidle hheld hlore hagain =>
      hidle.fine_launch hf hd hw List.not_mem_nil fuel hheld hlore hagain) hsettle
  refine hfine.settles hf hd hs hw ⟨rfl, rfl⟩ htidy running (fun hok hused => ?_)
    (List.forall_mem_nil _) hrun hle
  obtain ⟨lore, hunder, -⟩ := hfine.ok hok
  refine hunder.heedful_other hw heeds (fun _ _ hjoin => by cases htr.symm.trans hjoin) ?_
  exact hstart.lodges_settle hf hw hopen hproper hinner
    (fun r' waiting s' lore' hidle hheld hlore hagain =>
      hidle.lodges_launch hf hd hs hw htidy fuel hheld hlore hagain hused hok) hsettle hused hok

/-- A net at rest that is told of a finished activity settles again. -/
theorem complete_settles (hf : fitter.Regular) {fuel : Nat} {token : TokenId} {output : Nat}
    (path : List String) {sc : Scene} (htidy : sc.Tidy fitter last) (hawake : sc.engine.Awake)
    (hsettled : sc.engine.Throughout Settled) {run : Run}
    (hrun : complete fuel path sc.engine token output sc.supply = some run)
    (hle : run.supply.used ≤ last.used) : run.Settles := by
  induction path generalizing sc run with
  | nil =>
    rw [complete_nil hawake.here.running hrun]
    exact settles_error
  | cons head rest ih =>
    have hrunning := hawake.here.running
    have hheeds := Heedful.of_settled hsettled [] []
    rcases complete_cases hrunning hrun with ⟨f, -, rfl⟩ |
      ⟨i, slot, activity, held, j, t, place, hslot, htr, hheld, hplace, hafter⟩ |
      ⟨i, slot, nest, t, child, inner, reacted, hslot, htr, hinner, hsettle, hafter⟩
    · exact settles_error
    · exact settles_released hf htidy hawake.alert hheeds.setOut hrunning hslot htr hheld hplace
        hafter hle
    · have hmem := List.mem_of_getElem? hslot
      have hchild : child.Awake := hawake.child hmem htr
      have hinside : Scene.Tidy fitter last ⟨child, sc.supply, sc.lore.below slot.step⟩ :=
        htidy.child hmem htr
      rcases complete_proper hf rest hinside.steadfast.sound hchild hinner with
        hproper | ⟨f, hcaller, rfl⟩
      · exact settles_within hf htidy hawake.alert hheeds.setOut hrunning hslot htr
          hchild.not_completed hproper (ih hinside hchild (hsettled.child hmem htr) hinner) hsettle
          hafter hle
      · rw [within_refused hslot htr hcaller.spares hsettle hafter]
        exact settles_error

end Engine

def Again.Settling (fitter : Fitter) (last : Supply) (again : Engine → Supply → Option Run) : Prop :=
  ∀ (sc : Scene) (run : Run), sc.Tidy fitter last → sc.engine.Asleep →
    sc.engine.Throughout Engine.Settled → again sc.engine sc.supply = some run →
    run.supply.used ≤ last.used → run.Settles

namespace Station

variable {fitter : Fitter} {last : Supply} {w : Station} {again : Engine → Supply → Option Run}
  {drive : Drive} {fuel : Nat} {reacted : Reacted}

/-- How a step goes on, if the joins have been heedful before. -/
theorem Ready.heeds_goOn (hf : fitter.Regular) (hd : drive.Proper fitter)
    (hs : drive.Settling fitter last) (ha : Again.Proper fitter again)
    (has : Again.Settling fitter last again) (hw : w.Ready fitter) (htidy : w.scene.Tidy fitter last)
    (calm : w.scene.engine.Alert [] (w.i :: w.asleep) w.owed w.queue) (hi : w.i ∉ w.asleep)
    (heeds : w.scene.engine.Heedful [] w.owed w.queue)
    (hgo : Engine.goOn again drive fuel w.slot (w.scene.engine.reaction w.slot) w.scene.supply =
      some reacted) (hle : reacted.supply.used ≤ last.used) (hok : reacted.result = .ok ()) :
    (w.engine reacted.reaction reacted.transition).Heedful []
      (w.owed ++ reacted.reaction.produced) w.queue := by
  have hself : w.scene.engine.become w.i w.scene.engine.holdings w.slot.transition =
      w.scene.engine := Engine.become_self hw.stands
  obtain ⟨lore, hunder, -⟩ := (hw.goOn hf hd ha calm hi hgo).ok hok
  unfold Engine.goOn at hgo
  split at hgo
  · obtain rfl := Option.some.inj hgo
    simp only [announce_all, Engine.reaction, engine, List.append_nil, hself]
    exact heeds
  · rename_i nest t child htr
    split at hgo
    · cases hgo
    rename_i run hrun
    have hmem := List.mem_of_getElem? hw.stands
    have hasleep := calm.nested w.i w.slot nest t child List.not_mem_nil hw.stands htr
    rw [if_pos List.mem_cons_self] at hasleep
    have hproper := ha ⟨child, w.scene.supply, w.scene.lore.below w.slot.step⟩ run
      (hw.sound.child hmem htr) hasleep hrun
    have hstart := hw.start calm.rouse
    rw [htr] at hstart
    refine hunder.heedful_other hw heeds.setOut (fun _ _ hjoin => by cases htr.symm.trans hjoin) ?_
    exact hstart.lodges_settle hf hw hasleep.not_completed hproper
      (fun hlast => has ⟨child, w.scene.supply, w.scene.lore.below w.slot.step⟩ run
        (htidy.child hmem htr) hasleep
        (heeds.nested w.i w.slot nest t child List.not_mem_nil hw.stands htr) hrun hlast)
      (fun r' waiting s' lore' hidle hheld hlore hagain =>
        hidle.lodges_launch hf hd hs hw htidy fuel hheld hlore hagain hle hok) hgo hle hok
  · obtain rfl := Option.some.inj hgo
    simp only [Engine.reaction, engine, List.append_nil, hself]
    exact heeds

end Station

namespace Engine

variable {fitter : Fitter} {last : Supply} {again : Engine → Supply → Option Run} {drive : Drive}
  {fuel : Nat}

/-- Waking a net takes nobody out of a join. -/
theorem settled_woken {e : Engine} (h : e.Throughout Settled) :
    Throughout Settled { e.activate with status := .running } := by
  refine .intro (fun hplan hgathers slot hs => ?_) fun slot hs nest t child ht => ?_
  all_goals obtain ⟨old, hold, rfl⟩ := List.mem_map.1 hs
  · exact h.here hplan hgathers old hold
  · exact h.child hold ht

/-- The steps go on in turn, and the joins stay heedful. -/
theorem resumeSlots_heeds (hf : fitter.Regular) (hd : drive.Proper fitter)
    (hs : drive.Settling fitter last) (ha : Again.Proper fitter again)
    (has : Again.Settling fitter last again) (rest : List Nat) (hnodup : rest.Nodup) {sc : Scene}
    (htidy : sc.Tidy fitter last) {owed : List (Nat × Token)} {queue : List Notice}
    (hready : sc.engine.status = .completed ∨
      sc.engine.Alert [] rest owed queue ∧ sc.engine.Heedful [] owed queue) {v : Visit}
    (hrun : resumeSlots again drive fuel sc.engine sc.supply rest = some v)
    (hle : v.supply.used ≤ last.used) (hok : v.result = .ok ()) :
    v.engine.status = .completed ∨ v.engine.Alert [] [] owed (queue ++ v.notices) ∧
      v.engine.Heedful [] owed (queue ++ v.notices) := by
  induction rest generalizing sc queue v with
  | nil =>
    unfold resumeSlots at hrun
    obtain rfl := Option.some.inj hrun
    rw [List.append_nil]
    exact hready
  | cons i rest ih =>
    obtain ⟨hi, hnodup'⟩ := List.nodup_cons.1 hnodup
    rcases resumeSlots_cases (hready.imp id And.left) hrun with ⟨hcompleted, rfl⟩ | ⟨hcalm, hcases⟩
    · exact .inl hcompleted
    have hrunning := hcalm.brisk.running
    have hheeds := (hready.resolve_left fun h => by cases hrunning.symm.trans h).2
    rcases hcases with ⟨hnone, hlater⟩ | ⟨slot, reacted, hslot, hgo, hcases⟩
    · exact ih hnodup' htidy (.inr ⟨hcalm.pass hnone, hheeds⟩) hlater hle hok
    have hw : Station.Ready fitter ⟨sc, i, slot, rest, owed, queue⟩ :=
      ⟨htidy.steadfast.sound, hslot⟩
    have hfine := hw.goOn hf hd ha hcalm hi hgo
    have hv := hfine.visited hrunning
    obtain ⟨lore, hcourse, -⟩ := hv.course
    obtain ⟨r, tr, s, result⟩ := reacted
    rcases hcases with ⟨f, hresult, rfl⟩ | ⟨hresult, later, hlater, rfl⟩
    · cases hresult.symm.trans hok
    cases result with
    | error f => cases hresult
    | ok u =>
      have hsound := hcourse.sound hf htidy.steadfast.sound
      obtain ⟨_, hcourse', -⟩ := (@resumeSlots_proper _ _ _ fuel hf hd ha rest hnodup' _ hsound
        _ _ (hv.ok rfl) _ hlater).course
      have hused : s.used ≤ last.used := hcourse'.used_le.trans hle
      obtain ⟨_, hunder, halert⟩ := hfine.ok rfl
      -- What the step has brought about is heeded, and the other steps go on from there.
      have hnow := accepted_settling halert (hw.heeds_goOn hf hd hs ha has htidy hcalm hi hheeds
        hgo hused rfl)
      have hend := ih hnodup' (hcourse.tidy hf hused htidy) hnow hlater hle hok
      rw [List.append_assoc] at hend
      exact hend

/-- A paused net whose joins are settled is settled again when it has gone on. -/
theorem resume_settling (hf : fitter.Regular) (fuel : Nat) :
    Again.Settling fitter last (resume fuel) := by
  induction fuel with
  | zero =>
    intro sc run _ _ _ hrun
    cases hrun
  | succ fuel ih =>
    intro sc run htidy hasleep hsettled hrun hle
    have hpaused : sc.engine.status = .paused := hasleep.here.paused
    have hd := drive_proper hf fuel
    have hs : Drive.Settling fitter last (drive fuel) := drive_settling hf fuel
    have ha := resume_proper hf fuel
    have hwoken : Course sc [] ⟨{ sc.engine.activate with status := .running }, sc.supply,
        sc.lore⟩ := Course.of_act (.woken hpaused)
    have hsound := hwoken.sound hf htidy.steadfast.sound
    obtain ⟨v, hv, hcases⟩ := resume_cases hpaused hrun
    have hvisit := @resumeSlots_proper _ _ _ fuel hf hd ha (List.range sc.engine.slots.length)
      List.nodup_range ⟨{ sc.engine.activate with status := .running }, sc.supply, sc.lore⟩
      hsound sc.engine.held [] (.inr hasleep.wake) v hv
    rcases hcases with ⟨f, -, rfl⟩ | ⟨hresult, rest, hrest, rfl⟩
    · exact settles_error
    · obtain ⟨lore, hcourse, hready, hknown⟩ :=
        hvisit.offered hresult (held_known htidy.steadfast.sound)
      obtain ⟨_, hlater⟩ := (hd ⟨_, _, lore⟩ _ rest (hcourse.sound hf hsound) hready hknown
        hrest).course
      have hused : v.supply.used ≤ last.used := hlater.used_le.trans hle
      have htidy' := hwoken.tidy hf (hcourse.used_le.trans hused) htidy
      have hwake := Heedful.of_settled (settled_woken hsettled) sc.engine.held []
      have hend := @resumeSlots_heeds _ _ _ _ fuel hf hd hs ha ih (List.range sc.engine.slots.length)
        List.nodup_range ⟨{ sc.engine.activate with status := .running }, sc.supply, sc.lore⟩
        htidy' sc.engine.held [] (.inr ⟨hasleep.wake, hwake⟩) v hv hused hresult
      rw [List.nil_append] at hend
      refine hs ⟨_, _, lore⟩ _ rest (hcourse.tidy hf hused htidy') ?_ hknown hrest hle
      rcases hend with hcompleted | ⟨halert, hheeds⟩
      · refine .inl ?_
        rw [acceptAll_of_not_running (by rw [hcompleted]; exact fun h => by cases h)]
        exact hcompleted
      · rw [← List.nil_append sc.engine.held] at halert hheeds
        exact accepted_settling halert hheeds

section

variable {plan : Plan} {e : Engine} {events : List Event}

/-- A call leaves a net settled that was settled before, unless it ends or halts. -/
theorem Raised.settles (hf : fitter.Regular) (h : Raised fitter plan events e)
    (settled : e.status = .running ∨ e.status = .paused → e.Throughout Settled) {fuel : Nat}
    {s : Supply} {call : Call} {run : Run} (starts : ∀ t, call = .start t → t.Proper)
    (answers : e.answer fuel s call = some run)
    (fresh : Supply.Fresh (e.opened call).Mentions s run.supply)
    (fits : (e.opened call).Throughout (Fits fitter)) : run.Settles := by
  have hsteady := h.reachable.steady hf
  have htidy := h.tidy hf starts fits fresh
  by_cases hunexpected : e.status ≠ call.expects
  · rw [refused_of_unexpected hunexpected answers]
    exact settles_error
  have hstatus := not_not.1 hunexpected
  cases call with
  | start t =>
    have hb := built_of_build (hsteady.created hstatus)
    rw [opened_start hstatus] at htidy
    refine startWith_settles hf ?_ htidy (hb.mentions_start t) answers le_rfl
    rwa [hsteady.runs]
  | complete path token output =>
    exact complete_settles hf path htidy (hsteady.running hstatus) (settled (.inl hstatus)) answers
      le_rfl
  | resume =>
    exact resume_settling hf fuel _ run htidy (hsteady.paused hstatus) (settled (.inr hstatus))
      answers le_rfl

/-- In a net that works or is paused, all joins have been told of what is there. -/
theorem Raised.settled (hf : fitter.Regular) (h : Raised fitter plan events e) :
    e.status = .running ∨ e.status = .paused → e.Throughout Settled := by
  induction h with
  | built build =>
    rw [(built_of_build build).status]
    rintro (hlive | hlive) <;> cases hlive
  | @called e _ fuel s call run before starts answers fresh ih =>
    rcases (before.reachable.steady hf).answer hf answers with ⟨f, -, rfl⟩ | ⟨hopens, hproper⟩
    · exact ih
    intro hlive
    cases hresult : run.result with
    | error f =>
      rw [(hproper.error f hresult).2.1] at hlive
      rcases hlive with hlive | hlive <;> cases hlive
    | ok u =>
      refine (before.settles hf ih starts answers fresh hopens.fits hresult).resolve_left fun hend => ?_
      rw [hend] at hlive
      rcases hlive with hlive | hlive <;> cases hlive
  | @paused e _ before now ih =>
    intro hlive
    have hwas : e.status = .running ∨ e.status = .paused := by
      rcases status_pause e now with hsame | ⟨hwas, -⟩ | ⟨-, hhalted⟩
      · rwa [hsame] at hlive
      · exact hwas
      · rw [hhalted] at hlive
        rcases hlive with hlive | hlive <;> cases hlive
    refine pause_keeps (ih hwas) now fun e next slots hslots he hplan hgathers slot hs => ?_
    obtain ⟨old, hold, hhush⟩ := exists_left_of_forall₂ hslots hs
    intro inputs pending htr
    have hjoin := hhush.join htr
    rw [hhush.sitters]
    cases hhush with
    | same => exact he hplan hgathers slot hold inputs pending hjoin
    | hushed => exact he hplan hgathers old hold inputs pending hjoin

end

end Engine
end RecipeNet
