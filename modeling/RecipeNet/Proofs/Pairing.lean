import RecipeNet.Proofs.Plan.Document
import RecipeNet.Proofs.Recovery
import RecipeNet.Proofs.Safety

/-!
Fingerprints. A fingerprint is the hash of a plan's text, and the text tells which plan it is. So
as long as the hash tells two plans apart, a new net of the one refuses what a net of the other has
been paused with.
-/

namespace RecipeNet

/-- Two texts that have the same hash only if they are the same. -/
def Sha256.TellsApart (s t : String) : Prop :=
  hexOfText s = hexOfText t → s = t

theorem Plan.fingerprint_inj {p q : Plan} (h : Sha256.TellsApart p.text q.text) :
    p.fingerprint = q.fingerprint ↔ p = q :=
  ⟨fun hprint => text_injective (h hprint), congrArg fingerprint⟩

namespace Engine

variable {fitter : Fitter} {plan : Plan} {e : Engine} {s : Snapshot} {now : Timestamp}

/-- At any time a net has the fingerprint of its plan. -/
theorem Fits.print (h : e.Fits fitter) : e.fingerprint = e.plan.fingerprint :=
  (built_of_build h.1).print

/-- What a net is paused with says which plan the net runs. -/
theorem Steady.labels (h : Steady fitter plan e) (captured : (e.pause now).2 = .ok s) :
    s.planId = plan.id ∧ s.version = plan.version ∧ s.fingerprint = plan.fingerprint := by
  rw [pause_eq (pausable_of_pause captured)] at captured
  obtain rfl := Except.ok.inj captured
  have hprint := h.fits.here.print
  rw [h.runs] at hprint
  exact ⟨congrArg Plan.id h.runs, congrArg Plan.version h.runs, hprint⟩

/-- A net accepts the name, the version and the fingerprint of its own plan only. -/
theorem misfit?_eq_none {planId fingerprint : String} {version : UInt32} :
    e.misfit? planId version fingerprint = none ↔
      planId = e.plan.id ∧ version = e.plan.version ∧ fingerprint = e.fingerprint := by
  unfold misfit?
  split
  · simp_all
  · split
    · simp_all
    · split <;> simp_all

/-- The text of a plan tells which plan it is, and the plan is read from it again. If its hash does
so too, a new net of a plan accepts what a net of another plan was paused with only if the plans
are the same. -/
theorem fingerprint_identifies (p q : Plan) :
    (p.text = q.text → p = q) ∧ Plan.ofText? q.text = some q ∧
      ∀ {w : World} {fitter fitter' : Fitter} {e fresh : Engine} {now : Timestamp} {s : Snapshot},
        fitter.Regular → Reachable w fitter p e → (e.pause now).2 = .ok s →
        build fitter' q = .ok fresh → Sha256.TellsApart p.text q.text →
        (fresh.misfit? s.planId s.version s.fingerprint = none ↔ p = q) := by
  refine ⟨fun h => Plan.text_injective h, q.ofText?_text, ?_⟩
  intro w fitter fitter' e fresh now s hf h captured hbuild apart
  obtain ⟨hid, hversion, hprint⟩ := (h.steady hf).labels captured
  have hb := built_of_build hbuild
  rw [misfit?_eq_none, hid, hversion, hprint, hb.runs, hb.print, Plan.fingerprint_inj apart]
  constructor
  · exact fun hsame => hsame.2.2
  · rintro rfl
    exact ⟨rfl, rfl, rfl⟩

def bakery : Plan :=
  { kitchen with steps := [⟨"cook", none, ["order"], ["dish"], .task "bake"⟩] }

theorem bakery_apart : Sha256.TellsApart kitchen.text bakery.text := by
  have hdiffer : ¬ Sha256.hexOfText kitchen.text = Sha256.hexOfText bakery.text := by
    decide +kernel
  exact fun hsame => absurd hsame hdiffer

/-- A kitchen accepts what a kitchen was paused with, and a bakery refuses it. -/
theorem bakery_refuses_kitchen : ∃ (fresh other : Engine) (run : Run) (s : Snapshot),
    build .standard kitchen = .ok fresh ∧ build .standard bakery = .ok other ∧
    fresh.answer 20 serial (.start job) = some run ∧ (run.engine.pause default).2 = .ok s ∧
    fresh.misfit? s.planId s.version s.fingerprint = none ∧
    other.misfit? s.planId s.version s.fingerprint ≠ none := by
  have hrunning : ((build .standard kitchen).toOption.bind fun e =>
      (e.answer 20 serial (.start job)).map fun run => run.engine.status) = some .running := by
    decide +kernel
  obtain ⟨fresh, hfresh⟩ : ∃ e, build .standard kitchen = .ok e := ⟨_, rfl⟩
  obtain ⟨other, hother⟩ : ∃ e, build .standard bakery = .ok e := ⟨_, rfl⟩
  rw [hfresh] at hrunning
  obtain ⟨run, hanswer, hrunning⟩ := Option.map_eq_some_iff.1 hrunning
  have hreachable : Reachable World.careless .standard kitchen run.engine :=
    .called (.built hfresh) (fun _ _ => trivial) hanswer trivial
  have hawake := (hreachable.steady Fitter.standard_regular).running hrunning
  have hcaptured := congrArg Prod.snd (pause_eq hawake.pausable default)
  have hsame := (fingerprint_identifies kitchen kitchen).2.2 Fitter.standard_regular hreachable
    hcaptured hfresh fun _ => rfl
  have hdiffer := (fingerprint_identifies kitchen bakery).2.2 Fitter.standard_regular hreachable
    hcaptured hother bakery_apart
  refine ⟨fresh, other, run, _, hfresh, hother, hanswer, hcaptured, hsame.2 rfl, fun hnone => ?_⟩
  exact absurd (hdiffer.1 hnone) (by simp [kitchen, bakery])

end Engine
end RecipeNet
