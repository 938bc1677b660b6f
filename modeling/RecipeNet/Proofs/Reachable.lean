import RecipeNet.Proofs.Net.Report
import RecipeNet.Proofs.Snapshot.Pausing
import RecipeNet.Proofs.Snapshot.Restoring

/-!
The nets that can come about. A net is built, and then it is started, told of
finished activities, paused, resumed, restored and disposed of in any order.
-/

namespace RecipeNet

/-- What is promised of the surroundings of a net: the tokens that it is started
with, the identities that are drawn when some tokens are known, and snapshots
from elsewhere. -/
structure World where
  starts : Token → Prop
  draws : (Token → Prop) → Supply → Supply → Prop
  admits : Snapshot → Prop

namespace Engine

inductive Call where
  | start (t : Token)
  | complete (path : List String) (token : TokenId) (output : Nat)
  | resume

def answer (fuel : Nat) (e : Engine) (s : Supply) : Call → Option Run
  | .start t => e.startWith fuel t s
  | .complete path token output => complete fuel path e token output s
  | .resume => resume fuel e s

def Call.expects : Call → Status
  | .start _ => .created
  | .complete _ _ _ => .running
  | .resume => .paused

def Call.request : Call → Request
  | .start _ => .start
  | .complete _ _ _ => .complete
  | .resume => .resume

/-- The net that a call sets to work: a new one gets its start token. -/
def opened (e : Engine) : Call → Engine
  | .start t => if e.status = .created then e.entered t else e
  | .complete _ _ _ | .resume => e

theorem opened_start {e : Engine} (created : e.status = .created) (t : Token) :
    e.opened (.start t) = e.entered t := if_pos created

/-- A call sets a net to work as it is, unless it starts a new one. -/
theorem opened_cases (e : Engine) (call : Call) : e.opened call = e ∨
    ∃ t, call = .start t ∧ e.status = .created ∧ e.opened call = e.entered t := by
  cases call with
  | start t =>
    by_cases hcreated : e.status = .created
    · exact .inr ⟨t, rfl, hcreated, opened_start hcreated t⟩
    · exact .inl (if_neg hcreated)
  | complete | resume => exact .inl rfl

inductive Call.Refusal (e : Engine) : Call → Fault → Prop
  | start (t : Token) (isNew : e.status ≠ .created) :
    Refusal e (.start t) (.wrongState .start e.status)
  | complete (path : List String) (token : TokenId) (output : Nat) (f : Fault)
      (caller : f.OfCaller output) : Refusal e (.complete path token output) f
  | resume (isPaused : e.status ≠ .paused) : Refusal e .resume (.wrongState .resume e.status)

/-- A call that does not suit the status of a net is refused and has no effect, if it
is answered at all. -/
theorem answer_unexpected {e : Engine} {call : Call} (unexpected : e.status ≠ call.expects)
    (fuel : Nat) (s : Supply) : fuel = 0 ∧ e.answer fuel s call = none ∨
      e.answer fuel s call = some ⟨e, s, [], .error (.wrongState call.request e.status)⟩ := by
  cases call with
  | start t =>
    have hnew : e.status ≠ .created := unexpected
    right
    simp only [answer, startWith, enter, if_neg hnew, Call.request]
  | complete path token output =>
    right
    unfold answer complete
    exact if_pos unexpected
  | resume =>
    cases fuel with
    | zero => exact .inl ⟨rfl, rfl⟩
    | succ fuel =>
      right
      unfold answer resume
      exact if_pos unexpected

theorem refused_of_unexpected {e : Engine} {call : Call} (unexpected : e.status ≠ call.expects)
    {fuel : Nat} {s : Supply} {run : Run} (hrun : e.answer fuel s call = some run) :
    run = ⟨e, s, [], .error (.wrongState call.request e.status)⟩ := by
  rcases answer_unexpected unexpected fuel s with ⟨-, hnone⟩ | hrefused
  · cases hnone.symm.trans hrun
  · exact Option.some.inj (hrun.symm.trans hrefused)

/-- A net that some sequence of requests leads to. -/
inductive Reachable (w : World) (fitter : Fitter) (plan : Plan) : Engine → Prop
  | built {e : Engine} (build : Engine.build fitter plan = .ok e) : Reachable w fitter plan e
  | called {e : Engine} {fuel : Nat} {s : Supply} {call : Call} {run : Run}
      (before : Reachable w fitter plan e) (starts : ∀ t, call = .start t → w.starts t)
      (answers : e.answer fuel s call = some run)
      (draws : w.draws (e.opened call).Mentions s run.supply) : Reachable w fitter plan run.engine
  | paused {e : Engine} (now : Timestamp) (before : Reachable w fitter plan e) :
    Reachable w fitter plan (e.pause now).1
  | restored {e : Engine} {snapshot : Snapshot} (before : Reachable w fitter plan e)
      (admitted : w.admits snapshot) : Reachable w fitter plan (e.restore snapshot).1
  | recovered {e other : Engine} {now : Timestamp} {snapshot : Snapshot}
      (before : Reachable w fitter plan e) (source : Reachable w fitter plan other)
      (captured : (other.pause now).2 = .ok snapshot) :
    Reachable w fitter plan (e.restore snapshot).1
  | disposed {e : Engine} (before : Reachable w fitter plan e) : Reachable w fitter plan e.dispose

/-- What a net is at any time: new, at rest or paused as its status says, and
fitted to its plan throughout. -/
structure Steady (fitter : Fitter) (plan : Plan) (e : Engine) : Prop where
  runs : e.plan = plan
  fits : e.Throughout (Fits fitter)
  created : e.status = .created → build fitter plan = .ok e
  running : e.status = .running → e.Awake
  paused : e.status = .paused → e.Asleep

variable {fitter : Fitter} {plan : Plan} {e : Engine}

theorem Built.mentions_start (h : Built fitter plan e) (t : Token) :
    (e.entered t).MentionsAt [] t := by
  obtain ⟨hold, hat⟩ : ∃ hold, e.holdings[e.startPlace]? = some hold :=
    ⟨_, List.getElem?_eq_getElem h.startPlace_lt⟩
  have hmem : hold.add t ∈ (e.entered t).holdings := by
    refine List.mem_of_getElem? (i := e.startPlace) ?_
    simp [entered, hat]
  exact .place hmem (List.mem_append_right _ List.mem_cons_self)

structure Ongoing (e : Engine) : Prop where
  completion : e.completion = none
  haltedBy : e.haltedBy = none

theorem Awake.ongoing (h : e.Awake) : e.Throughout Ongoing :=
  h.imp fun _ he => ⟨he.completion, he.haltedBy⟩

theorem Asleep.ongoing (h : e.Asleep) : e.Throughout Ongoing :=
  h.imp fun _ he => ⟨he.completion, he.haltedBy⟩

theorem Steady.of_awake (runs : e.plan = plan) (fits : e.Throughout (Fits fitter))
    (h : e.Awake) : e.Steady fitter plan := by
  have hrunning := h.here.running
  refine ⟨runs, fits, fun hc => ?_, fun _ => h, fun hp => ?_⟩
  · cases hrunning.symm.trans hc
  · cases hrunning.symm.trans hp

theorem Steady.of_asleep (runs : e.plan = plan) (fits : e.Throughout (Fits fitter))
    (h : e.Asleep) : e.Steady fitter plan := by
  have hpaused := h.here.paused
  refine ⟨runs, fits, fun hc => ?_, fun hr => ?_, fun _ => h⟩
  · cases hpaused.symm.trans hc
  · cases hpaused.symm.trans hr

theorem Steady.of_over (runs : e.plan = plan) (fits : e.Throughout (Fits fitter)) {status : Status}
    (h : e.status = status)
    (ended : status ≠ .created ∧ status ≠ .running ∧ status ≠ .paused) : e.Steady fitter plan := by
  subst h
  exact ⟨runs, fits, fun hc => absurd hc ended.1, fun hr => absurd hr ended.2.1,
    fun hp => absurd hp ended.2.2⟩

theorem Steady.of_build (h : build fitter plan = .ok e) : e.Steady fitter plan := by
  have hb := built_of_build h
  refine ⟨hb.runs, .intro (Fits.of_build h) fun slot hs nest t child ht =>
    absurd ht (hb.vacant hs nest t child), fun _ => h, fun hstatus => ?_, fun hstatus => ?_⟩
  · cases hb.status.symm.trans hstatus
  · cases hb.status.symm.trans hstatus

theorem Steady.opened {P : Engine → Prop} (h : e.Steady fitter plan) (he : e.Throughout P)
    (entered : build fitter plan = .ok e → ∀ t, P (e.entered t)) (call : Call) :
    (e.opened call).Throughout P := by
  rcases opened_cases e call with hsame | ⟨t, -, hcreated, hentered⟩
  · rw [hsame]
    exact he
  · have hbuild := h.created hcreated
    rw [hentered]
    exact entered_throughout (built_of_build hbuild) t (entered hbuild t)

structure Opens (fitter : Fitter) (plan : Plan) (e : Engine) : Prop where
  runs : e.plan = plan
  fits : e.Throughout (Fits fitter)
  ongoing : e.Throughout Ongoing

/-- A call is refused, or what it does is a course that ends well or in a fault. -/
theorem Steady.answer (hf : fitter.Regular) (h : e.Steady fitter plan) {fuel : Nat} {call : Call}
    {s : Supply} {run : Run} (hrun : e.answer fuel s call = some run) :
    (∃ f, call.Refusal e f ∧ run = ⟨e, s, [], .error f⟩) ∨
    ((e.opened call).Opens fitter plan ∧ run.Proper ⟨e.opened call, s, (e.opened call).lore⟩) := by
  cases call with
  | start t =>
    by_cases hcreated : e.status = .created
    · right
      have hbuild := h.created hcreated
      have hb := built_of_build hbuild
      have hopened := opened_start hcreated t
      have hfits : (e.entered t).Throughout (Fits fitter) :=
        entered_throughout hb t (Fits.entered hbuild t)
      have hongoing : (e.entered t).Throughout Ongoing :=
        entered_throughout hb t ⟨hb.completion, hb.haltedBy⟩
      have hbuilt : e.Built fitter e.plan := h.runs.symm ▸ hb
      rw [hopened]
      exact ⟨⟨h.runs, hfits, hongoing⟩, startWith_proper hf hbuilt (sound_lore hfits s)
        (hb.mentions_start t) hrun⟩
    · exact .inl ⟨_, .start t hcreated, refused_of_unexpected hcreated hrun⟩
  | complete path token output =>
    by_cases hrunning : e.status = .running
    · have hawake := h.running hrunning
      rcases complete_proper hf path (sound_lore h.fits s) hawake hrun with
        hproper | ⟨f, hcaller, hrefused⟩
      · exact .inr ⟨⟨h.runs, h.fits, hawake.ongoing⟩, hproper⟩
      · exact .inl ⟨f, .complete path token output f hcaller, hrefused⟩
    · exact .inl ⟨_, .complete path token output _ (.wrongState e.status),
        refused_of_unexpected hrunning hrun⟩
  | resume =>
    by_cases hpaused : e.status = .paused
    · have hasleep := h.paused hpaused
      exact .inr ⟨⟨h.runs, h.fits, hasleep.ongoing⟩, resume_proper hf fuel ⟨e, s, e.lore⟩ run
        (sound_lore h.fits s) hasleep hrun⟩
    · exact .inl ⟨_, .resume hpaused, refused_of_unexpected hpaused hrun⟩

theorem Steady.of_proper (hf : fitter.Regular) {sc : Scene} {run : Run} (hplan : sc.engine.plan = plan)
    (hsound : sc.Sound fitter) (h : run.Proper sc) : run.engine.Steady fitter plan := by
  obtain ⟨lore, hcourse⟩ := h.course
  have hfits := throughout_fits (hcourse.sound hf hsound).kept
  have hruns : run.engine.plan = plan := hcourse.keeps (P := fun sc => sc.engine.plan = plan)
    (fun act ha => act.plan_eq.trans ha) hplan
  cases hresult : run.result with
  | error f =>
    obtain ⟨-, hhalted, -⟩ := h.error f hresult
    exact .of_over hruns hfits hhalted (by decide)
  | ok u =>
    rcases h.ok hresult with hcompleted | hawake
    · exact .of_over hruns hfits hcompleted (by decide)
    · exact .of_awake hruns hfits hawake

theorem Steady.called (hf : fitter.Regular) (h : e.Steady fitter plan) {fuel : Nat} {call : Call}
    {s : Supply} {run : Run} (hrun : e.answer fuel s call = some run) :
    run.engine.Steady fitter plan := by
  rcases h.answer hf hrun with ⟨f, -, rfl⟩ | ⟨hopens, hproper⟩
  · exact h
  · exact .of_proper hf hopens.runs (sound_lore hopens.fits s) hproper

theorem Steady.pause (h : e.Steady fitter plan) (now : Timestamp) :
    (e.pause now).1.Steady fitter plan := by
  have hplan := (plan_pause e now).trans h.runs
  have hfits := fits_pause h.fits now
  rcases status_pause e now with hsame | ⟨hrunning | hpaused, -⟩ | ⟨-, hhalted⟩
  · rw [hsame]
    exact h
  · exact .of_asleep hplan hfits ((h.running hrunning).pause now)
  · exact .of_asleep hplan hfits ((h.paused hpaused).pause now)
  · exact .of_over hplan hfits hhalted (by decide)

theorem Steady.restore (hf : fitter.Regular) (h : e.Steady fitter plan) (snapshot : Snapshot) :
    (e.restore snapshot).1.Steady fitter plan := by
  have hall := Snapshot.throughout_of_forall (fun _ => True.intro) snapshot
  rcases restore_cases e snapshot with ⟨e', hok, hloads⟩ | ⟨f, herror⟩ |
    ⟨slots, f, herror, hcreated, -⟩
  · have hbuild := h.created hloads.created
    have hasleep := restore_asleep hf hbuild hok
    obtain ⟨hplan, hstocked⟩ := restore_throughout hf hall hbuild
    rw [hok] at hplan hstocked ⊢
    exact .of_asleep hplan (hstocked.imp fun e ⟨_, _, he⟩ => he.fits) hasleep
  · rw [herror]
    exact h
  · obtain ⟨hplan, hstocked⟩ := restore_throughout hf hall (h.created hcreated)
    rw [herror] at hplan hstocked ⊢
    have hhalted : (e.spoiled slots f).status = .halted := rfl
    exact .of_over hplan (hstocked.imp fun e ⟨_, _, he⟩ => he.fits) hhalted (by decide)

theorem outline_dispose (e : Engine) : e.dispose.outline = e.outline := by
  have hslot : ∀ slot : Slot, Slot.outline { slot with
      phase := .disposed, transition := slot.transition.dispose } = slot.outline := by
    intro slot
    cases slot with
    | mk step inputs outputs phase tr => cases tr <;> rfl
  have hslots : e.dispose.slots.map Slot.outline = e.slots.map Slot.outline := by
    rw [dispose, List.map_map]
    exact List.map_congr_left fun slot _ => hslot slot
  simp only [outline, hslots]
  rfl

theorem dispose_vacant {slot : Slot} (hs : slot ∈ e.dispose.slots) (nest : Nest) (t : Token)
    (child : Engine) : slot.transition ≠ .busy nest t child := by
  obtain ⟨old, -, rfl⟩ := List.mem_map.1 hs
  cases old.transition <;> simp [Transition.dispose]

theorem dispose_join {slot : Slot} (hs : slot ∈ e.dispose.slots) {inputs : Nat}
    {pending : List Generation} (htr : slot.transition = .join inputs pending) :
    ∃ old ∈ e.slots, old.transition = .join inputs pending := by
  obtain ⟨old, hold, rfl⟩ := List.mem_map.1 hs
  refine ⟨old, hold, ?_⟩
  revert htr
  cases old.transition with
  | busy => exact fun h => by cases h
  | _ => exact id

theorem Orderly.dispose {F : Nat → Generation → Prop} (h : e.Orderly F) : e.dispose.Orderly F := by
  intro slot hs inputs pending htr
  obtain ⟨old, hold, heq⟩ := dispose_join hs htr
  exact h old hold inputs pending heq

/-- A net that has been disposed of mentions nothing new. -/
theorem lore_dispose (e : Engine) : e.dispose.lore ≤ e.lore := by
  intro path t ht
  change e.dispose.MentionsAt path t at ht
  cases path with
  | nil =>
    refine ht.own (fun h hh t ht => .place hh ht) (fun slot hs t ht => ?_) (e.lore_closed [])
    obtain ⟨old, hold, rfl⟩ := List.mem_map.1 hs
    have hkept : t ∈ old.transition.tokens → e.MentionsAt [] t := .step hold
    refine hkept ?_
    revert ht
    cases old.transition with
    | busy => exact fun hnone => by cases hnone
    | _ => exact id
  | cons step path =>
    obtain ⟨slot, hs, -, nest, u, child, hbusy, -⟩ := ht.inside
    exact absurd hbusy (dispose_vacant hs nest u child)

theorem Steady.dispose (h : e.Steady fitter plan) : e.dispose.Steady fitter plan := by
  have hdisposed : e.dispose.status = .disposed := rfl
  refine .of_over h.runs (.intro ⟨?_, fun slot hs nest t child ht => ?_⟩
    fun slot hs nest t child ht => ?_) hdisposed (by decide)
  · rw [outline_dispose]
    exact h.fits.here.1
  · exact absurd ht (dispose_vacant hs nest t child)
  · exact absurd ht (dispose_vacant hs nest t child)

/-- A net stays steady whatever is asked of it. -/
theorem Reachable.steady {w : World} (hf : fitter.Regular) (h : Reachable w fitter plan e) :
    e.Steady fitter plan := by
  induction h with
  | built build => exact .of_build build
  | called _ _ answers _ ih => exact ih.called hf answers
  | paused now _ ih => exact ih.pause now
  | restored _ _ ih => exact ih.restore hf _
  | recovered _ _ _ ih _ => exact ih.restore hf _
  | disposed _ ih => exact ih.dispose

/-- A property of reachable nets is shown request by request. Snapshots that are
taken of such nets have to be as good as those from elsewhere. -/
theorem Reachable.keeps {w : World} (hf : fitter.Regular) {I : Engine → Prop}
    {A : Snapshot → Prop} (ofBuild : ∀ {e}, build fitter plan = .ok e → I e)
    (course : ∀ {e call s events e' s' lore'}, e.Steady fitter plan → I e →
      (∀ t, call = .start t → w.starts t) → (e.opened call).Opens fitter plan →
      Course ⟨e.opened call, s, (e.opened call).lore⟩ events ⟨e', s', lore'⟩ →
      w.draws (e.opened call).Mentions s s' → I e')
    (pause : ∀ {e} now, I e → I (e.pause now).1)
    (admits : ∀ {snapshot}, w.admits snapshot → A snapshot)
    (captures : ∀ {e} now, e.Steady fitter plan → e.Pausable → I e → A (e.captured now))
    (restore : ∀ {e snapshot}, build fitter plan = .ok e → A snapshot → I (e.restore snapshot).1)
    (dispose : ∀ {e}, e.Steady fitter plan → I e → I e.dispose) (h : Reachable w fitter plan e) :
    I e := by
  have hrestore : ∀ {e snapshot}, e.Steady fitter plan → I e → A snapshot →
      I (e.restore snapshot).1 := by
    intro e snapshot hsteady he hA
    rcases restore_cases e snapshot with ⟨e', -, hloads⟩ | ⟨f, herror⟩ | ⟨slots, f, -, hcreated, -⟩
    · exact restore (hsteady.created hloads.created) hA
    · rw [herror]
      exact he
    · exact restore (hsteady.created hcreated) hA
  induction h with
  | built build => exact ofBuild build
  | called before starts answers draws ih =>
    have hsteady := before.steady hf
    rcases hsteady.answer hf answers with ⟨f, -, rfl⟩ | ⟨hopens, hproper⟩
    · exact ih
    · obtain ⟨lore, hcourse⟩ := hproper.course
      exact course hsteady ih starts hopens hcourse draws
  | paused now _ ih => exact pause now ih
  | restored before admitted ih => exact hrestore (before.steady hf) ih (admits admitted)
  | @recovered _ other now snapshot before source captured ih ihs =>
    have hpausable := pausable_of_pause captured
    have hsnapshot : other.captured now = snapshot := by
      rw [pause_eq hpausable] at captured
      exact Except.ok.inj captured
    exact hrestore (before.steady hf) ih
      (hsnapshot ▸ captures now (source.steady hf) hpausable ihs)
  | disposed before ih => exact dispose (before.steady hf) ih

/-- Lasting properties of the generations in joins hold in all reachable nets, if
the snapshots from elsewhere are no worse than those that are taken. -/
theorem Reachable.orderly {w : World} (hf : fitter.Regular) {F : Nat → Generation → Prop}
    {A : Snapshot → Prop} (lasting : Generation.Lasting F)
    (admits : ∀ snapshot, w.admits snapshot → snapshot.Throughout A)
    (captures : ∀ (e : Engine) now, e.Orderly F → A (e.captured now))
    (restores : ∀ (e : Engine) snapshot, e.Stocked fitter snapshot → A snapshot → e.Orderly F)
    (h : Reachable w fitter plan e) : e.Throughout (Orderly F) := by
  refine h.keeps hf (A := fun snapshot => snapshot.Throughout A) ?_ ?_ ?_ ?_ ?_ ?_ ?_
  · intro e hbuild
    have hb := built_of_build hbuild
    exact .intro hb.orderly fun slot hs nest t child ht => absurd ht (hb.vacant hs nest t child)
  · intro e call s events e' s' lore' hsteady he _ hopens hcourse _
    have hstart := hsteady.opened he
      (fun hbuild => (built_of_build hbuild).entered_orderly) call
    exact (hcourse.orderly lasting hf (hopens.fits.and hstart)).imp fun e he => he.2
  · exact fun now he => orderly_pause he now
  · exact fun hw => admits _ hw
  · exact fun now _ hp he => captured_throughout he hp fun e he => captures e now he
  · intro e snapshot hbuild hA
    exact (restore_throughout hf hA hbuild).2.imp fun e ⟨_, hA, hs⟩ => restores e _ hs hA
  · intro e hsteady he
    exact .intro he.here.dispose fun slot hs nest t child ht =>
      absurd ht (dispose_vacant hs nest t child)

/-- A work item for nets to start with. It is numbered, as the tokens are that come after it. -/
def job : Token := ⟨⟨0⟩, none, none⟩

def serial : Supply := ⟨fun n => ⟨BitVec.ofNat 128 (n + 1)⟩, 0⟩

end Engine
end RecipeNet
