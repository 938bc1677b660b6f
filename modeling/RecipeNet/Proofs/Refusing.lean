import RecipeNet.Proofs.Conclusion
import RecipeNet.Proofs.Losses
import RecipeNet.Proofs.Pairing
import RecipeNet.Proofs.Rest

/-!
Restores that are refused. Whatever the steps of a net are fitted with, a snapshot that it does not
take in either leaves it as it is or spoils it, and a spoiled net has nothing in its places and
never works.
-/

namespace RecipeNet

def Snapshot.Of (snapshot : Snapshot) (plan : Plan) : Prop :=
  snapshot.planId = plan.id ∧ snapshot.version = plan.version ∧
    snapshot.fingerprint = plan.fingerprint

namespace Engine

variable {w : World} {fitter : Fitter} {plan : Plan} {e : Engine} {snapshot : Snapshot} {f : Fault}

/-- A net that is new is just as it was built. -/
theorem Reachable.build_of_created (h : Reachable w fitter plan e) (created : e.status = .created) :
    build fitter plan = .ok e := by
  have hrestored : ∀ {e : Engine} {snapshot : Snapshot},
      (e.status = .created → build fitter plan = .ok e) →
      (e.restore snapshot).1.status = .created → build fitter plan = .ok (e.restore snapshot).1 := by
    intro e snapshot ih hcreated
    rcases restore_cases e snapshot with ⟨e', hok, hloads⟩ | ⟨f, herror⟩ | ⟨slots, f, herror, -⟩
    · obtain ⟨tokens, contents, -, -, -, -, rfl⟩ := hloads.loaded
      rw [hok] at hcreated
      cases hcreated
    · rw [herror] at hcreated ⊢
      exact ih hcreated
    · rw [herror] at hcreated
      cases hcreated
  induction h with
  | built build => exact build
  | @called e fuel s call run before starts answers draws ih =>
    obtain ⟨changes, loss, hdealings, -⟩ := (answer_keeps before.founded answers).kept
    rcases hdealings.not_created with hsame | hold
    · rcases opened_cases e call with hasis | ⟨t, -, -, hentered⟩
      · rw [hsame, hasis] at created ⊢
        exact ih created
      · rw [hsame, hentered] at created
        cases created
    · exact absurd created hold
  | @paused e now before ih =>
    rcases status_pause e now with hsame | ⟨-, hpaused⟩ | ⟨-, hhalted⟩
    · rw [hsame] at created ⊢
      exact ih created
    · cases hpaused.symm.trans created
    · cases hhalted.symm.trans created
  | restored before admitted ih => exact hrestored ih created
  | recovered before source captured ih _ => exact hrestored ih created
  | disposed => cases created

/-- A net is refused the snapshot of another plan before anything has changed. -/
theorem restore_misfit {reason : Mismatch} (created : e.status = .created)
    (misfit : e.misfit? snapshot.planId snapshot.version snapshot.fingerprint = some reason) :
    e.restore snapshot = (e, .error (.snapshotMismatch e.plan.id reason)) := by
  obtain ⟨planId, version, fingerprint, time, records, places, transitions⟩ := snapshot
  rw [restore, if_neg (not_not.2 created), misfit]

/-- A step that cannot be given its state spoils the net, with the states of the steps before it. -/
theorem restore_stuck {tokens : List Token} {contents : List (Nat × List Token)} {slots : List Slot}
    (created : e.status = .created)
    (fits : e.misfit? snapshot.planId snapshot.version snapshot.fingerprint = none)
    (unpacks : Snapshot.unpack e.holdings snapshot.tokens snapshot.places snapshot.transitions =
      .ok (tokens, contents))
    (stuck : Slot.restoreAll e.plan.id tokens e.slots snapshot.transitions = (slots, .error f)) :
    e.restore snapshot = (e.spoiled slots f, .error f) := by
  obtain ⟨planId, version, fingerprint, time, records, places, transitions⟩ := snapshot
  rw [restore, if_neg (not_not.2 created), fits]
  simp only [unpacks, stuck]

/-- A new net that does not take in a snapshot of its own plan is spoiled. -/
theorem restore_spoils (created : e.status = .created)
    (fits : e.misfit? snapshot.planId snapshot.version snapshot.fingerprint = none)
    (fails : (e.restore snapshot).2 = .error f) :
    ∃ slots, (e.restore snapshot).1 = e.spoiled slots f := by
  cases hunpack : Snapshot.unpack e.holdings snapshot.tokens snapshot.places snapshot.transitions with
  | error reason =>
    obtain ⟨planId, version, fingerprint, time, records, places, transitions⟩ := snapshot
    rw [restore, if_neg (not_not.2 created), fits, hunpack] at fails ⊢
    obtain rfl := Except.error.inj fails
    exact ⟨_, rfl⟩
  | ok unpacked =>
    obtain ⟨tokens, contents⟩ := unpacked
    cases hslots : Slot.restoreAll e.plan.id tokens e.slots snapshot.transitions with
    | mk slots result =>
      cases result with
      | error f' =>
        rw [restore_stuck created fits hunpack hslots] at fails ⊢
        obtain rfl := Except.error.inj fails
        exact ⟨slots, rfl⟩
      | ok =>
        obtain ⟨planId, version, fingerprint, time, records, places, transitions⟩ := snapshot
        rw [restore, if_neg (not_not.2 created), fits] at fails
        simp only [hunpack, hslots] at fails
        cases fails

inductive LeadsTo (e : Engine) : Engine → Prop
  | here : LeadsTo e e
  | performed {e' : Engine} {fuel : Nat} {s : Supply} {op : Operation} {out : Outcome}
      (before : LeadsTo e e') (performs : e'.perform fuel s op = some out) : LeadsTo e out.engine

/-- Every net that operations lead to from a halted one has halted or has been disposed of. -/
theorem LeadsTo.stays_halted {e' : Engine} (h : LeadsTo e e') (halted : e.status = .halted) :
    e'.status = .halted ∨ e'.status = .disposed := by
  induction h with
  | here => exact .inl halted
  | @performed e' fuel s op out _ performs ih =>
    cases op with
    | call call =>
      have hunexpected : e'.status ≠ call.expects := by
        rcases ih with h | h <;> rw [h] <;> cases call <;> exact nofun
      obtain ⟨run, hrun, rfl⟩ := Option.map_eq_some_iff.1 performs
      rw [refused_of_unexpected hunexpected hrun]
      exact ih
    | pause now =>
      obtain rfl := Option.some.inj performs
      rcases status_pause e' now with hsame | ⟨hlive | hlive, -⟩ | ⟨-, hhalted⟩
      · rwa [hsame]
      · rcases ih with hover | hover <;> cases hlive.symm.trans hover
      · rcases ih with hover | hover <;> cases hlive.symm.trans hover
      · exact .inl hhalted
    | restore snapshot =>
      obtain rfl := Option.some.inj performs
      have hold : e'.status ≠ .created := by
        rcases ih with h | h <;> rw [h] <;> exact nofun
      rw [restore_refused hold]
      exact ih
    | dispose =>
      obtain rfl := Option.some.inj performs
      exact .inr rfl

/-- A net that refuses to be started, to be told of finished activities and to be resumed,
whatever else is asked of it before. -/
def Shut (e : Engine) : Prop :=
  ∀ later, LeadsTo e later → ∀ (call : Call) (fuel : Nat) (s : Supply),
    later.answer (fuel + 1) s call =
      some ⟨later, s, [], .error (.wrongState call.request later.status)⟩

theorem shut_of_halted (halted : e.status = .halted) : e.Shut := by
  intro later hlater call fuel s
  have hunexpected : later.status ≠ call.expects := by
    rcases hlater.stays_halted halted with h | h <;> rw [h] <;> cases call <;> exact nofun
  rcases answer_unexpected hunexpected (fuel + 1) s with ⟨hfuel, -⟩ | hrefused
  · cases hfuel
  · exact hrefused

/-- What a net of a plan is after a snapshot has been refused. -/
inductive RefusedRestore (fitter : Fitter) (plan : Plan) (e : Engine) (snapshot : Snapshot) :
    Fault → Engine → Prop
  /-- The net is not new, and stays what it is. -/
  | late (old : e.status ≠ .created) :
    RefusedRestore fitter plan e snapshot (.wrongState .restore e.status) e
  /-- The snapshot is one of another plan, and the net is as new as it was. -/
  | foreign {reason : Mismatch} (created : e.status = .created) (other : ¬ snapshot.Of plan)
      (misfit : e.misfit? snapshot.planId snapshot.version snapshot.fingerprint = some reason)
      (fresh : build fitter plan = .ok e) :
    RefusedRestore fitter plan e snapshot (.snapshotMismatch plan.id reason) e
  /-- The snapshot has spoiled the net. -/
  | spoiled {f : Fault} {e' : Engine} (created : e.status = .created) (own : snapshot.Of plan)
      (halted : e'.status = .halted) (reason : e'.haltReason = some f.message)
      (empty : ∀ hold ∈ e'.holdings, hold.tokens = []) (shut : e'.Shut) :
    RefusedRestore fitter plan e snapshot f e'

/-- A restore that is refused leaves nothing half-loaded, whatever has been asked of the net
before. -/
theorem refused_restore_all_or_nothing {events : List Event} {fuel : Nat} {s : Supply} {out : Outcome}
    (h : Watched fitter plan events e) (performs : e.perform fuel s (.restore snapshot) = some out)
    (fails : out.result = .error f) :
    out.events = [] ∧ RefusedRestore fitter plan e snapshot f out.engine := by
  obtain rfl := Option.some.inj performs
  refine ⟨rfl, ?_⟩
  dsimp only at fails ⊢
  by_cases hcreated : e.status = .created
  · have hbuild := h.reachable.build_of_created hcreated
    have hb := built_of_build hbuild
    cases hfits : e.misfit? snapshot.planId snapshot.version snapshot.fingerprint with
    | some reason =>
      have hother : ¬ snapshot.Of plan := by
        rintro ⟨hid, hversion, hprint⟩
        have hnone := misfit?_eq_none (e := e).2
          ⟨hid.trans (congrArg Plan.id hb.runs.symm), hversion.trans (congrArg Plan.version hb.runs.symm),
            hprint.trans hb.print.symm⟩
        cases hfits.symm.trans hnone
      rw [restore_misfit hcreated hfits] at fails ⊢
      obtain rfl := Except.error.inj fails
      rw [hb.runs]
      exact .foreign hcreated hother hfits hbuild
    | none =>
      obtain ⟨hid, hversion, hprint⟩ := misfit?_eq_none.1 hfits
      rw [hb.runs] at hid hversion
      obtain ⟨slots, hspoiled⟩ := restore_spoils hcreated hfits fails
      rw [hspoiled]
      exact .spoiled hcreated ⟨hid, hversion, hprint.trans hb.print⟩ rfl rfl hb.empty
        (shut_of_halted rfl)
  · rw [restore_refused hcreated] at fails ⊢
    obtain rfl := Except.error.inj fails
    exact .late hcreated

/-- A canteen in which someone eats while a bakery works in place of the kitchen. -/
def muddle : Snapshot where
  planId := "canteen"
  version := 1
  fingerprint := canteen.fingerprint
  capturedAt := default
  tokens := [⟨⟨1⟩, none, none⟩, ⟨⟨2⟩, none, none⟩, ⟨⟨3⟩, none, none⟩]
  places := [⟨"counter", [⟨3⟩]⟩]
  transitions := [⟨"eat", .task [⟨1⟩]⟩, ⟨"order", .nested ⟨2⟩
    ⟨"bakery", 1, bakery.fingerprint, default, [⟨⟨4⟩, none, none⟩], [⟨"order", [⟨4⟩]⟩], []⟩⟩]

/-- The kitchen refuses what is given to it when the eater is seated already, and the canteen is
shut with nothing on its counter. -/
theorem canteen_all_or_nothing : ∃ (e : Engine) (out : Outcome) (f : Fault),
    build .standard canteen = .ok e ∧ e.perform 1 serial (.restore muddle) = some out ∧
    out.result = .error f ∧ out.engine.slots.flatMap (·.transition.tokens) ≠ [] ∧
    out.engine.status = .halted ∧ out.events = [] ∧
    RefusedRestore .standard canteen e muddle f out.engine := by
  have hfacts : ((build .standard canteen).toOption.bind fun e =>
      (Snapshot.unpack e.holdings muddle.tokens muddle.places muddle.transitions).toOption.map
        fun unpacked =>
          let (slots, result) := Slot.restoreAll e.plan.id unpacked.1 e.slots muddle.transitions
          ((slots.flatMap (·.transition.tokens)).map (·.id), result.toOption)) =
      some ([⟨1⟩], none) := by
    decide +kernel
  obtain ⟨e, hbuild⟩ : ∃ e, build .standard canteen = .ok e := ⟨_, rfl⟩
  have hb := built_of_build hbuild
  have hown : e.misfit? muddle.planId muddle.version muddle.fingerprint = none :=
    misfit?_eq_none.2 ⟨congrArg Plan.id hb.runs.symm, congrArg Plan.version hb.runs.symm, hb.print.symm⟩
  rw [hbuild] at hfacts
  cases hunpack : Snapshot.unpack e.holdings muddle.tokens muddle.places muddle.transitions with
  | error reason =>
    simp only [Except.toOption, Option.bind_some, hunpack, Option.map_none] at hfacts
    cases hfacts
  | ok unpacked =>
    obtain ⟨tokens, contents⟩ := unpacked
    cases hslots : Slot.restoreAll e.plan.id tokens e.slots muddle.transitions with
    | mk slots result =>
      simp only [Except.toOption, Option.bind_some, hunpack, Option.map_some, hslots,
        Option.some.injEq, Prod.mk.injEq] at hfacts
      obtain ⟨hseated, hfails⟩ := hfacts
      cases result with
      | ok u => cases hfails
      | error f =>
        have hspoils := restore_stuck hb.status hown hunpack hslots
        have hperforms : e.perform 1 serial (.restore muddle) = some ⟨e.spoiled slots f, [], .error f⟩ := by
          rw [perform, hspoils]
        refine ⟨e, _, f, hbuild, hperforms, rfl, fun hnone => ?_, rfl,
          refused_restore_all_or_nothing (.built hbuild) hperforms rfl⟩
        dsimp only [spoiled] at hnone
        rw [hnone] at hseated
        cases hseated

end Engine
end RecipeNet
