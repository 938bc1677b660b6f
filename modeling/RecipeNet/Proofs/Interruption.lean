import RecipeNet.Proofs.Echoes
import RecipeNet.Proofs.Return
import RecipeNet.Proofs.Transparency

/-!
Runs that are interrupted. A run that pauses after some firings, and goes on from the file of its
snapshot later, ends as it would have without the pause if the paused session is intact: what comes
back is the net that was paused, and it waits for the same activities in the same order. If the
order is another one, the run may end elsewhere.
-/

namespace RecipeNet

def Supply.bare (s : Supply) : Token := ⟨s.draw s.used, none, none⟩

theorem Supply.skip_inj {s : Supply} {n m : Nat} (h : s.skip n = s.skip m) : n = m :=
  Nat.add_left_cancel (congrArg Supply.used h)

/-- What holds of a net without nets within holds throughout it. -/
theorem Engine.throughout_flat {P : Engine → Prop} {e : Engine}
    (flat : e.slots.all (·.transition.nest?.isNone) = true) (here : P e) : e.Throughout P := by
  refine .intro here fun slot hs nest t child hbusy => ?_
  have hnone := List.all_eq_true.1 flat slot hs
  rw [hbusy] at hnone
  cases hnone

namespace CommandLine

variable {now later : Timestamp} {fuel : Nat} {options : Options} {plan : Plan}
  {supply first last : Supply} {e : Engine} {ending ending' : Ending} {snapshot : Snapshot}

def Options.limited (count : Nat) (o : Options) : Options := { o with pauseAfter := some count }

def Options.continued (o : Options) : Options := { o with resume := true }

namespace Session

variable {s p : Session} {run : Run} {rest : List Activity}

def limited (count : Nat) (s : Session) : Session := { s with options := s.options.limited count }

/-- A session that comes back from a file as it was paused: every token behind a join sits in it,
none is held twice, the activities wait in the order of the steps, and the document is not too
deep. -/
structure Intact (s : Session) (snapshot : Snapshot) : Prop where
  seated : s.engine.Throughout Engine.Seated
  exclusive : s.engine.Throughout Engine.Exclusive
  inOrder : s.activities = s.engine.awaited.filterMap Activity.ofEvent?
  shallow : (Data.ofJson snapshot.toJson).depth ≤ 127

/-! ### Sessions with new identities -/

/-- A session of a run that draws from a supply, and what it draws later is new to its net. -/
structure Fair (options : Options) (plan : Plan) (first last : Supply) (s : Session) : Prop where
  options : s.options = options
  raised : ∃ log, Engine.Raised .standard plan log s.engine
  solely : Engine.Reachable (World.solely first.bare) .standard plan s.engine
  since : first.used ≤ s.supply.used
  fresh : Supply.Fresh s.engine.Mentions s.supply last

theorem Fair.steady (h : s.Fair options plan first last) : s.engine.Steady .standard plan :=
  h.solely.steady Fitter.standard_regular

theorem Fair.settle (h : s.Fair options plan first last) (time : Option Nat) :
    (s.settle time).Fair options plan first last :=
  ⟨h.options, h.raised, h.solely, h.since, h.fresh⟩

theorem Fair.onward (h : s.Fair options plan first last) (finishes : s.Finishes fuel rest run)
    (hle : run.supply.used ≤ last.used) : (s.onward rest run).Fair options plan first last := by
  obtain ⟨n, hn, -⟩ := finishes.echoed (ρ := Equiv.refl TokenId)
  obtain ⟨log, hraised⟩ := h.raised
  obtain ⟨-, activity, -, hcall⟩ := finishes
  have hstarts : ∀ (P : Token → Prop) t, Engine.Call.complete activity.step.path activity.token
      (s.options.resultFor activity.name) = .start t → P t := fun _ _ hstart => by cases hstart
  obtain ⟨hraised', hfresh⟩ := hraised.further Fitter.standard_regular (hstarts _) hcall h.fresh hle
  refine ⟨h.options, ⟨_, hraised'⟩, .called h.solely (hstarts _) hcall (h.fresh.anti hle), ?_, hfresh⟩
  have hdrawn : run.supply.used = s.supply.used + n := congrArg Supply.used hn
  show first.used ≤ run.supply.used
  rw [hdrawn]
  exact Nat.le_add_right_of_le h.since

theorem settle_settle (s : Session) : (s.settle none).settle none = s.settle none := by
  simp only [settle, Timeline.recordAll, List.filterMap_nil, List.map_nil, List.append_nil]

/-- What is fresh may be taken into account before. -/
theorem drive_settle (s : Session) : (s.settle none).drive now fuel = s.drive now fuel := by
  cases fuel with
  | zero => rfl
  | succ fuel => rw [drive, drive, settle_settle]

theorem drive_supply (h : s.drive now fuel = some ending) (unlimited : s.options.pauseAfter = none) :
    ∃ n, ending.supply? = some (s.supply.skip n) := by
  obtain ⟨n, hn, -⟩ := drive_echoed (ρ := Equiv.refl TokenId) h unlimited
  exact ⟨n, hn⟩

/-! ### The pause -/

/-- A session that is paused where another one rests that would come to an ending. -/
structure Pauses (now : Timestamp) (ending : Ending) (s p : Session) (snapshot : Snapshot) :
    Prop where
  running : s.engine.status = .running
  shown : s.fresh = []
  captured : (s.engine.pause now).2 = .ok snapshot
  engine : p.engine = s.engine.slumber
  supply : p.supply = s.supply
  activities : p.activities = s.activities
  drives : ∃ fuel, s.drive now fuel = some ending

/-- What becomes of a run that is to be paused: it comes to what it would come to without, or it
is paused on the way there. -/
inductive Limits (options : Options) (plan : Plan) (first last : Supply) (now : Timestamp)
    (ending : Ending) : Ending → Prop
  | through {ending' : Ending} (verdict : ending'.verdict? = ending.verdict?)
      (unpaused : ∀ p snapshot, ending' ≠ .paused p snapshot) :
      Limits options plan first last now ending ending'
  | cut {s p : Session} {snapshot : Snapshot} (fair : s.Fair options plan first last)
      (pauses : Pauses now ending s p snapshot) :
      Limits options plan first last now ending (.paused p snapshot)

theorem drive_limited (h : s.drive now fuel = some ending) (unlimited : options.pauseAfter = none)
    (fair : s.Fair options plan first last)
    (within : ∀ final, ending.supply? = some final → final.used ≤ last.used) (count : Nat) :
    ∃ ending', (s.limited count).drive now fuel = some ending' ∧
      Limits options plan first last now ending ending' := by
  induction fuel generalizing s with
  | zero => cases h
  | succ fuel ih =>
    have hdrives : (s.settle none).drive now (fuel + 1) = some ending := by
      rwa [drive_settle]
    have hfair := fair.settle none
    have hlimited : (s.limited count).settle none = (s.settle none).limited count := rfl
    rw [drive_unlimited (fair.options ▸ unlimited)] at h
    rw [drive, hlimited]
    have hshown : (s.settle none).fresh = [] := rfl
    generalize s.settle none = settled at h hdrives hfair hshown
    by_cases hdue : (settled.limited count).isDue = true
    · have hrunning : settled.engine.status = .running :=
        of_decide_eq_true (Bool.and_eq_true_iff.1 hdue).2
      have hpause := Engine.pause_sleepy (hfair.steady.running hrunning).sleepy now
      have hpaused : (settled.limited count).engine.pause now = _ := hpause
      rw [if_pos hdue, hpaused]
      exact ⟨_, rfl, .cut hfair
        ⟨hrunning, hshown, congrArg Prod.snd hpause, rfl, rfl, rfl, fuel + 1, hdrives⟩⟩
    rw [if_neg hdue]
    rcases proceed_cases h with ⟨hidle, rfl⟩ | ⟨rest, run, hfinishes, hend⟩
    · have hidle' : (settled.limited count).Idle := hidle
      exact ⟨_, proceed_idle hidle', .through rfl fun p snapshot hends => by cases hends⟩
    have hfinishes' : (settled.limited count).Finishes fuel rest run :=
      ⟨hfinishes.running, hfinishes.turn⟩
    rw [proceed_finishes hfinishes']
    rcases hend with ⟨f, hresult, rfl⟩ | ⟨hresult, hagain⟩
    · rw [hresult]
      exact ⟨_, rfl, .through rfl fun p snapshot hends => by cases hends⟩
    rw [hresult]
    obtain ⟨n, hn⟩ := drive_supply hagain (hfair.options ▸ unlimited)
    have hused : run.supply.used ≤ last.used := (Nat.le_add_right _ n).trans (within _ hn)
    exact ih hagain (hfair.onward hfinishes hused)

/-- What is drawn after a pause is new to the paused net. -/
theorem Fair.fresh_paused (h : s.Fair options plan first last)
    (pauses : Pauses now ending s p snapshot) : Supply.Fresh p.engine.Mentions p.supply last := by
  rw [pauses.engine, pauses.supply]
  exact h.fresh.of_known fun _ => Engine.mentions_slumber
    (congrArg Prod.fst (Engine.pause_sleepy (h.steady.running pauses.running).sleepy now))

/-! ### The way back -/

/-- What comes back from the file is the net that was paused. -/
theorem Fair.launch_returned (h : s.Fair options plan first last)
    (pauses : Pauses now ending s p snapshot) (time : now.Genuine)
    (exclusive : p.engine.Throughout Engine.Exclusive)
    (shallow : (Data.ofJson snapshot.toJson).depth ≤ 127)
    (built : Engine.build .standard plan = .ok e) :
    options.continued.launch later fuel plan (.ok snapshot.fileText) supply =
      options.continued.start later fuel p.engine supply := by
  rw [pauses.engine] at exclusive ⊢
  obtain ⟨hread, hrestore⟩ := h.solely.returns (.new _) rfl pauses.running time pauses.captured shallow
    built (Engine.throughout_of_slumber (fun _ => Engine.exclusive_of_slumber) exclusive)
  have hsnapshot : Snapshot.ofFile (.ok snapshot.fileText) = .ok snapshot := by
    rw [Snapshot.ofFile, hread]
  have hcontinued : options.continued.resume = true := rfl
  rw [Options.launch, built]
  simp only [hcontinued, if_true, hsnapshot, hrestore]

/-- What wakes up waits for what it waited for. -/
theorem Pauses.start (pauses : Pauses now ending s p snapshot)
    (resumes : Engine.resume fuel s.engine.slumber supply =
      some ⟨s.engine, supply, s.engine.awaited, .ok ()⟩) :
    options.start later fuel p.engine supply =
      (opened options ⟨s.engine, supply, s.engine.awaited, .ok ()⟩).drive later fuel := by
  have hpaused : s.engine.slumber.status = .paused := by
    rw [Engine.slumber_eq]
  rw [pauses.engine, Options.start, Engine.start, if_pos hpaused, resumes]
  rfl

/-- What wakes up echoes the session that was paused if its activities are in order. -/
theorem Fair.echoes {ρ : Equiv.Perm TokenId} (h : s.Fair options plan first last)
    (pauses : Pauses now ending s p snapshot) (unlimited : options.pauseAfter = none)
    (inOrder : p.activities = p.engine.awaited.filterMap Activity.ofEvent?)
    (resumes : ∀ supply, Engine.resume fuel s.engine.slumber supply =
      some ⟨s.engine, supply, s.engine.awaited, .ok ()⟩)
    (fixed : ∀ t, s.engine.slumber.Mentions t → ρ t.id = t.id) (supply : Supply) :
    Echoes ρ s
      ((opened options.continued ⟨s.engine, supply, s.engine.awaited, .ok ()⟩).settle none) := by
  obtain ⟨hengine, hawaited⟩ := h.steady.rename_of_resumed pauses.running supply resumes fixed
  have hactivities : s.activities = s.engine.awaited.filterMap Activity.ofEvent? := by
    rw [← pauses.activities, inOrder, pauses.engine, Engine.awaited_slumber]
  refine ⟨h.options ▸ unlimited, unlimited, ?_, hengine.symm, ?_, ?_⟩
  · rw [h.options]
    rfl
  · rw [hactivities, ← Activity.ofEvents_rename, hawaited]
    rfl
  · rw [pauses.shown]
    rfl

/-- An intact session that has come back ends as it would have without the pause. -/
theorem Fair.returned (h : s.Fair options plan first last) (pauses : Pauses now ending s p snapshot)
    (ends : ending.supply? = some last) (time : now.Genuine) (intact : p.Intact snapshot)
    (unlimited : options.pauseAfter = none) (built : Engine.build .standard plan = .ok e)
    (later : Timestamp) {n : Nat} (most : last = first.skip n)
    (fresh : Supply.Fresh p.engine.Mentions supply (supply.skip n)) :
    ∃ fuel ending', options.continued.launch later fuel plan (.ok snapshot.fileText) supply =
      some ending' ∧ ending'.verdict? = ending.verdict? := by
  have hunlimited : s.options.pauseAfter = none := h.options ▸ unlimited
  have hseated := intact.seated
  have hasleep := h.fresh_paused pauses
  rw [pauses.engine] at hseated fresh hasleep
  obtain ⟨least, hresumes⟩ := h.solely.wakes pauses.running
    (Engine.throughout_of_slumber (fun _ => Engine.seated_of_slumber) hseated)
  obtain ⟨fuel, hdrives⟩ := pauses.drives
  obtain ⟨m, hm⟩ := drive_supply hdrives hunlimited
  obtain hlast : last = s.supply.skip m := Option.some.inj (ends.symm.trans hm)
  have hle : m ≤ n := by
    have hused : first.used + n = s.supply.used + m := congrArg Supply.used (most.symm.trans hlast)
    have hsince := h.since
    omega
  -- The identities that the paused net knows stay, those drawn after the pause are replaced.
  rw [pauses.supply, hlast] at hasleep
  obtain ⟨ρ, hfixed, hreplaces⟩ := hasleep.exists_replacement
    (fresh.anti (Nat.add_le_add_left hle supply.used))
  have hechoes := h.echoes pauses unlimited intact.inOrder (hresumes least le_rfl) hfixed supply
  obtain ⟨k, hk, hecho⟩ := drive_echoed (ρ := ρ) hdrives hunlimited
  obtain rfl := Supply.skip_inj (Option.some.inj (hm.symm.trans hk))
  obtain ⟨ending', hdrive, hverdict, -⟩ := hecho _ later hechoes hreplaces
  rw [drive_settle] at hdrive
  refine ⟨max least fuel, ending', ?_, hverdict⟩
  rw [h.launch_returned pauses time intact.exclusive intact.shallow built,
    pauses.start (hresumes _ (le_max_left _ _) supply)]
  exact drive_mono (le_max_right _ _) hdrive

end Session

/-! ### The start -/

namespace Options

open Session (Limits)

theorem start_new (created : e.status = .created) : options.start now fuel e supply =
    (e.answer fuel (supply.skip 1) (.start supply.bare)).bind fun run =>
      match run.result with
      | .error f => some (.failed (.opened options run) f)
      | .ok () => (Session.opened options run).drive now fuel := by
  have hlive : e.status ≠ .paused := fun hpaused => by cases created.symm.trans hpaused
  rw [start, Engine.start, if_neg hlive]
  rfl

/-- A new net comes to the same but for the identities that are drawn. -/
theorem start_echoed {ρ : Equiv.Perm TokenId} (built : Engine.build .standard plan = .ok e)
    (h : options.start now fuel e supply = some ending) (unlimited : options.pauseAfter = none) :
    ∃ n, ending.supply? = some (supply.skip n) ∧ ∀ later supply', supply.Replaces ρ n supply' →
      ∃ ending', options.start later fuel e supply' = some ending' ∧
        ending'.verdict? = ending.verdict? ∧ ending'.supply? = some (supply'.skip n) := by
  have hcreated := (Engine.built_of_build built).status
  rw [start_new hcreated] at h
  obtain ⟨run, hrun, h⟩ := Option.bind_eq_some_iff.1 h
  obtain ⟨m, hm, hother⟩ := Engine.mirrors_answer (ρ := ρ) fuel e _ _ run hrun
  rw [Engine.rename_new built] at hother
  have hstart : ∀ supply', supply.Replaces ρ (1 + m) supply' →
      e.answer fuel (supply'.skip 1) (.start supply'.bare) =
        some (run.rename ρ (supply'.skip (1 + m))) := by
    intro supply' replaces
    have hbare : supply.bare.rename ρ = supply'.bare := by
      have hdrawn := replaces 0 (by omega)
      exact congrArg (Token.mk · none none) hdrawn.symm
    have hanswer := hother (supply'.skip 1) replaces.right
    rwa [Engine.Call.rename, hbare, Supply.skip_skip] at hanswer
  have hechoes : ∀ s', Session.Echoes ρ (.opened options run) (.opened options (run.rename ρ s')) :=
    fun _ => ⟨unlimited, unlimited, rfl, rfl, rfl, rfl⟩
  rw [Supply.skip_skip] at hm
  cases hresult : run.result with
  | error f =>
    rw [hresult] at h
    obtain rfl := Option.some.inj h
    refine ⟨1 + m, congrArg some hm, fun later supply' replaces => ?_⟩
    refine ⟨.failed (.opened options (run.rename ρ (supply'.skip (1 + m)))) (f.rename ρ), ?_,
      congrArg some (hechoes _).verdict, rfl⟩
    rw [start_new hcreated, hstart supply' replaces, Option.bind_some, Run.rename, hresult]
    rfl
  | ok =>
    rw [hresult] at h
    obtain ⟨k, hk, hecho⟩ := Session.drive_echoed (ρ := ρ) h unlimited
    have hsupply : (Session.opened options run).supply.skip k = supply.skip (1 + m + k) := by
      show run.supply.skip k = _
      rw [hm, Supply.skip_skip]
    refine ⟨1 + m + k, hk.trans (congrArg some hsupply), fun later supply' replaces => ?_⟩
    have hrest : run.supply.Replaces ρ k (supply'.skip (1 + m)) := hm ▸ replaces.right
    obtain ⟨ending', hdrive, hverdict, hsupply'⟩ := hecho _ later (hechoes _) hrest
    refine ⟨ending', ?_, hverdict, hsupply'.trans (congrArg some (Supply.skip_skip _ _ _))⟩
    rw [start_new hcreated, hstart supply' replaces.left, Option.bind_some, Run.rename, hresult]
    exact hdrive

/-- The identities that are drawn are new to a net that is started with the first of them. -/
theorem fresh_started (built : Engine.build .standard plan = .ok e)
    (fresh : Supply.Fresh (fun _ => False) supply last) :
    Supply.Fresh (e.opened (.start supply.bare)).Mentions (supply.skip 1) last := by
  have hb := Engine.built_of_build built
  rw [Engine.opened_start hb.status]
  intro i hi hlt
  have hle : supply.used < i := hi
  obtain ⟨-, hother⟩ := fresh i hle.le hlt
  refine ⟨fun t ht => ?_, fun j hj => hother j (Nat.le_of_succ_le hj)⟩
  obtain ⟨path, ht⟩ := ht
  obtain rfl := List.mem_singleton.1 (Engine.entered_mentions hb ht).2
  exact hother supply.used le_rfl hle

theorem start_limited (built : Engine.build .standard plan = .ok e)
    (h : options.start now fuel e supply = some ending) (unlimited : options.pauseAfter = none)
    (within : ∀ final, ending.supply? = some final → final.used ≤ last.used)
    (fresh : Supply.Fresh (fun _ => False) supply last) (count : Nat) :
    ∃ ending', (options.limited count).start now fuel e supply = some ending' ∧
      Limits options plan supply last now ending ending' := by
  have hcreated := (Engine.built_of_build built).status
  rw [start_new hcreated] at h ⊢
  obtain ⟨run, hrun, h⟩ := Option.bind_eq_some_iff.1 h
  rw [hrun, Option.bind_some]
  cases hresult : run.result with
  | error f =>
    rw [hresult] at h
    obtain rfl := Option.some.inj h
    exact ⟨_, rfl, .through rfl fun p snapshot hends => by cases hends⟩
  | ok =>
    rw [hresult] at h
    obtain ⟨m, hm, -⟩ := Engine.mirrors_answer (ρ := Equiv.refl TokenId) fuel e _ _ run hrun
    obtain ⟨k, hk⟩ := Session.drive_supply h unlimited
    have hused : run.supply.used ≤ last.used := (Nat.le_add_right _ k).trans (within _ hk)
    have hnew := fresh_started built fresh
    have hproper : ∀ t, Engine.Call.start supply.bare = .start t → t.Proper := fun t ht => by
      cases ht
      exact (Token.Made.new _).line.1
    obtain ⟨hraised, hfresh⟩ :=
      (Engine.Raised.built built).further Fitter.standard_regular hproper hrun hnew hused
    have hfair : (Session.opened options run).Fair options plan supply last := by
      refine ⟨rfl, ⟨_, hraised⟩, ?_, ?_, hfresh⟩
      · exact .called (.built built) (fun t ht => by cases ht; rfl) hrun (hnew.anti hused)
      · show supply.used ≤ run.supply.used
        rw [hm]
        exact Nat.le_add_right_of_le (Nat.le_add_right _ _)
    exact Session.drive_limited h unlimited hfair within count

theorem launch_new (built : Engine.build .standard plan = .ok e) (first : options.resume = false)
    (file : Except String String) :
    options.launch now fuel plan file supply = options.start now fuel e supply := by
  rw [launch, built]
  simp only [first, Bool.false_eq_true, if_false]

/-- A run of a sound plan that ends draws some identities. If they are new, it is also run to be
paused after any number of firings, at another time and with other new identities. Then it ends
alike, or is paused; and if what is paused is intact, the run that goes on from the file of the
snapshot, again with new identities, ends alike. -/
theorem interruption_unnoticed {file : Except String String} (valid : plan.validate = .ok ())
    (first : options.resume = false) (unlimited : options.pauseAfter = none)
    (ends : options.launch now fuel plan file supply = some ending) :
    ∃ n, ending.supply? = some (supply.skip n) ∧
      (Supply.Fresh (fun _ => False) supply (supply.skip n) →
        ∀ (count : Nat) (time : Timestamp) (file : Except String String) (supply : Supply),
          time.Genuine → Supply.Fresh (fun _ => False) supply (supply.skip n) →
          ∃ ending', (options.limited count).launch time fuel plan file supply = some ending' ∧
            (ending'.verdict? = ending.verdict? ∨ ∃ p snapshot, ending' = .paused p snapshot) ∧
            ∀ p snapshot, ending' = .paused p snapshot → p.Intact snapshot →
              ∀ (later : Timestamp) (supply : Supply),
                Supply.Fresh p.engine.Mentions supply (supply.skip n) →
                ∃ fuel ending'', options.continued.launch later fuel plan (.ok snapshot.fileText) supply =
                  some ending'' ∧ ending''.verdict? = ending.verdict?) := by
  obtain ⟨e, built⟩ := Engine.build_isOk Fitter.standard_regular (Plan.validate_ok.1 valid)
  rw [launch_new built first] at ends
  obtain ⟨n, hn, -⟩ := start_echoed (ρ := Equiv.refl TokenId) built ends unlimited
  refine ⟨n, hn, fun fresh count time file' supply' genuine fresh' => ?_⟩
  -- The run is first repeated with the other identities, and then paused.
  obtain ⟨ρ, -, hreplaces⟩ := fresh.exists_replacement fresh'
  obtain ⟨m, hm, hother⟩ := start_echoed (ρ := ρ) built ends unlimited
  obtain rfl := Supply.skip_inj (Option.some.inj (hn.symm.trans hm))
  obtain ⟨whole, hwhole, hverdict, hdrawn⟩ := hother time supply' hreplaces
  have hwithin : ∀ final, whole.supply? = some final → final.used ≤ (supply'.skip n).used :=
    fun final hfinal => (congrArg Supply.used (Option.some.inj (hfinal.symm.trans hdrawn))).le
  obtain ⟨ending', hlimited, hlimits⟩ := start_limited built hwhole unlimited hwithin fresh' count
  refine ⟨ending', ?_, ?_, ?_⟩
  · have hfirst : (options.limited count).resume = false := first
    rw [launch_new built hfirst, hlimited]
  · cases hlimits with
    | through hsame _ => exact .inl (hsame.trans hverdict)
    | cut => exact .inr ⟨_, _, rfl⟩
  · rintro p snapshot rfl intact later supply'' fresh''
    cases hlimits with
    | through _ unpaused => exact absurd rfl (unpaused p snapshot)
    | cut hfair hpauses =>
      obtain ⟨fuel', ending'', hcontinued, hsame⟩ :=
        hfair.returned hpauses hdrawn genuine intact unlimited built later rfl fresh''
      exact ⟨fuel', ending'', hcontinued, hsame.trans hverdict⟩

/-! ### A duel -/

/-- A plan by which two halves of a work item fight for the end. -/
def duel : Plan where
  id := "duel"
  version := 1
  places := [{ id := "in", role := .start }, { id := "left" }, { id := "right" },
    { id := "west", role := .terminal }, { id := "east", role := .terminal }]
  steps := [⟨"split", none, ["in"], ["left", "right"], .split⟩,
    ⟨"turn", none, ["left"], ["west"], .task "turn"⟩,
    ⟨"go", none, ["right"], ["east"], .task "go"⟩]

/-- The duel with its steps in the opposite order. -/
def upset : Plan := { duel with id := "upset", steps := duel.steps.reverse }

theorem counting_new (built : Engine.build .standard plan = .ok e) {count : Nat}
    (few : count < 2 ^ 128 - 1) :
    Supply.Fresh (fun _ => False) Engine.counting ⟨Engine.counting.draw, count⟩ :=
  (Engine.counting_fresh built count few).of_known fun _ hnone => hnone.elim

/-- A run that draws numbers is paused where these are new. -/
theorem counted_pause {p : Session} (built : Engine.build .standard plan = .ok e)
    (unlimited : options.pauseAfter = none)
    (h : options.start now fuel e Engine.counting = some ending) {firings count : Nat}
    (hcut : (options.limited firings).start now fuel e Engine.counting = some (.paused p snapshot))
    (few : count < 2 ^ 128 - 1) (within : ending.supply?.all (·.used ≤ count) = true) :
    ∃ s : Session, s.Fair options plan Engine.counting ⟨Engine.counting.draw, count⟩ ∧
      Session.Pauses now ending s p snapshot := by
  have hwithin : ∀ final, ending.supply? = some final → final.used ≤ count := fun final hfinal => by
    rw [hfinal] at within
    exact of_decide_eq_true within
  obtain ⟨ending', hlimited, hlimits⟩ :=
    start_limited built h unlimited hwithin (counting_new built few) firings
  obtain rfl := Option.some.inj (hcut.symm.trans hlimited)
  cases hlimits with
  | through _ unpaused => exact absurd rfl (unpaused p snapshot)
  | cut hfair hpauses => exact ⟨_, hfair, hpauses⟩

/-- One half waits before the other one in the order of the steps, so the same half wins when the
duel has been interrupted. -/
theorem duel_unnoticed : ∃ (ending ending' : Ending) (p : Session) (snapshot : Snapshot) (fuel : Nat),
    duel.validate = .ok () ∧
    ({} : Options).launch Engine.leapNoon 20 duel (.error "") Engine.counting = some ending ∧
    ending.verdict? = some (.completed, some "west") ∧
    (limited 1 {}).launch Engine.leapNoon 20 duel (.error "") Engine.counting =
      some (.paused p snapshot) ∧
    p.activities.length = 2 ∧ p.Intact snapshot ∧
    (continued {}).launch Engine.leapNoon fuel duel (.ok snapshot.fileText) p.supply = some ending' ∧
    ending'.verdict? = some (.completed, some "west") := by
  have hfacts : ((Engine.build .standard duel).toOption.bind fun e =>
      (({} : Options).start Engine.leapNoon 20 e Engine.counting).bind fun ending =>
        (((limited 1 {}).start Engine.leapNoon 20 e Engine.counting).bind Ending.pause?).map fun x =>
          (ending.verdict?, ending.supply?.map (·.used), x.1.supply.used, x.1.activities.length,
            decide (x.1.engine.Seated ∧ x.1.engine.Exclusive ∧
              x.1.engine.slots.all (·.transition.nest?.isNone) = true ∧
              x.1.activities = x.1.engine.awaited.filterMap Activity.ofEvent? ∧
              (Data.ofJson x.2.toJson).depth ≤ 127))) =
      some (some (.completed, some "west"), some 3, 3, 2, true) := by
    decide +kernel
  obtain ⟨e, hbuild, hfacts⟩ := Option.bind_eq_some_iff.1 hfacts
  have hbuild := Engine.toOption_eq_some.1 hbuild
  obtain ⟨ending, hends, hfacts⟩ := Option.bind_eq_some_iff.1 hfacts
  obtain ⟨⟨p, snapshot⟩, hpause, hfacts⟩ := Option.map_eq_some_iff.1 hfacts
  obtain ⟨cut, hcut, hpause⟩ := Option.bind_eq_some_iff.1 hpause
  obtain rfl := Ending.eq_paused hpause
  simp only [Prod.mk.injEq, decide_eq_true_eq] at hfacts
  obtain ⟨hverdict, hdrawn, hused, hwaiting, hseated, hexclusive, hflat, horder, hdepth⟩ := hfacts
  have hintact : p.Intact snapshot := ⟨Engine.throughout_flat hflat hseated,
    Engine.throughout_flat hflat hexclusive, horder, hdepth⟩
  obtain ⟨final, hfinal, hthree⟩ := Option.map_eq_some_iff.1 hdrawn
  have hwithin : ending.supply?.all (·.used ≤ 6) = true := by
    rw [hfinal, Option.all_some, hthree]
    rfl
  obtain ⟨s, hfair, hpauses⟩ := counted_pause hbuild rfl hends hcut (by decide) hwithin
  have hfresh : Supply.Fresh p.engine.Mentions p.supply (p.supply.skip 3) :=
    (hfair.fresh_paused hpauses).anti (by
      show p.supply.used + 3 ≤ 6
      omega)
  rw [← launch_new hbuild rfl (.error "")] at hends hcut
  have hvalid : duel.validate = .ok () := by decide +kernel
  obtain ⟨n, hn, hlater⟩ := interruption_unnoticed hvalid rfl rfl hends
  obtain rfl : n = 3 := by
    obtain rfl := Option.some.inj (hfinal.symm.trans hn)
    have hsum : 0 + n = 3 := hthree
    omega
  have hnew : Supply.Fresh (fun _ => False) Engine.counting (Engine.counting.skip 3) :=
    counting_new hbuild (by decide)
  obtain ⟨ending', hlimit, -, hcontinues⟩ :=
    hlater hnew 1 Engine.leapNoon (.error "") Engine.counting Engine.leapNoon_genuine hnew
  obtain rfl := Option.some.inj (hlimit.symm.trans hcut)
  obtain ⟨fuel, ending'', hcontinued, hsame⟩ :=
    hcontinues p snapshot rfl hintact Engine.leapNoon p.supply hfresh
  exact ⟨ending, ending'', p, snapshot, fuel, hvalid, hends, hverdict, hcut,
    hwaiting, hintact, hcontinued, hsame.trans hverdict⟩

/-- The half that is first in the order of the steps goes on first after a pause, though it was the
other one that waited first. -/
theorem upset_ends_elsewhere : ∃ (ending ending' : Ending) (p : Session) (snapshot : Snapshot),
    upset.validate = .ok () ∧
    ({} : Options).launch Engine.leapNoon 20 upset (.error "") Engine.counting = some ending ∧
    ending.verdict? = some (.completed, some "west") ∧
    (limited 1 {}).launch Engine.leapNoon 20 upset (.error "") Engine.counting =
      some (.paused p snapshot) ∧
    (continued {}).launch Engine.leapNoon 20 upset (.ok snapshot.fileText) p.supply = some ending' ∧
    ending'.verdict? = some (.completed, some "east") := by
  have hfacts : ((Engine.build .standard upset).toOption.bind fun e =>
      (({} : Options).start Engine.leapNoon 20 e Engine.counting).bind fun ending =>
        (((limited 1 {}).start Engine.leapNoon 20 e Engine.counting).bind Ending.pause?).bind fun x =>
          ((continued {}).start Engine.leapNoon 20 x.1.engine x.1.supply).map fun ending' =>
            (ending.verdict?, ending'.verdict?, decide ((Data.ofJson x.2.toJson).depth ≤ 127 ∧
              x.1.engine.Exclusive ∧ x.1.engine.slots.all (·.transition.nest?.isNone) = true ∧
              ending.supply?.all (·.used ≤ 3) = true))) =
      some (some (.completed, some "west"), some (.completed, some "east"), true) := by
    decide +kernel
  obtain ⟨e, hbuild, hfacts⟩ := Option.bind_eq_some_iff.1 hfacts
  have hbuild := Engine.toOption_eq_some.1 hbuild
  obtain ⟨ending, hends, hfacts⟩ := Option.bind_eq_some_iff.1 hfacts
  obtain ⟨⟨p, snapshot⟩, hpause, hfacts⟩ := Option.bind_eq_some_iff.1 hfacts
  obtain ⟨cut, hcut, hpause⟩ := Option.bind_eq_some_iff.1 hpause
  obtain rfl := Ending.eq_paused hpause
  obtain ⟨ending', hback, hfacts⟩ := Option.map_eq_some_iff.1 hfacts
  simp only [Prod.mk.injEq, decide_eq_true_eq] at hfacts
  obtain ⟨hverdict, helsewhere, hdepth, hexclusive, hflat, hdrawn⟩ := hfacts
  obtain ⟨s, hfair, hpauses⟩ := counted_pause hbuild rfl hends hcut (by decide) hdrawn
  rw [← hfair.launch_returned hpauses Engine.leapNoon_genuine
    (Engine.throughout_flat hflat hexclusive) hdepth hbuild] at hback
  rw [← launch_new hbuild rfl (.error "")] at hends hcut
  exact ⟨ending, ending', p, snapshot, by decide +kernel, hends, hverdict, hcut, hback, helsewhere⟩

end Options
end CommandLine
end RecipeNet
