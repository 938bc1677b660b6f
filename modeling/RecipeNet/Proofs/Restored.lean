import RecipeNet.Proofs.Recovery
import RecipeNet.Proofs.Safety
import RecipeNet.Proofs.Sessions
import RecipeNet.Proofs.Snapshot.RoundTrip

/-!
What is brought back. A net that has taken in the snapshot of another one is that net,
as it was paused, at every depth; so whatever is asked of the two later, they answer
alike.
-/

namespace RecipeNet

def World.identified : World := ⟨Token.Proper, Supply.Fresh, fun _ => True⟩

theorem Supply.Fresh.of_known {known known' : Token → Prop} {s last : Supply}
    (h : Supply.Fresh known s last) (hle : ∀ t, known' t → known t) : Supply.Fresh known' s last := by
  intro i hi hlast
  obtain ⟨hnew, hother⟩ := h i hi hlast
  exact ⟨fun t ht => hnew t (hle t ht), hother⟩

theorem Supply.Fresh.skip {known : Token → Prop} {s last : Supply} (h : Supply.Fresh known s last)
    (n : Nat) : Supply.Fresh known (s.skip n) last := by
  intro i hi hlast
  have hle : s.used ≤ s.used + n := Nat.le_add_right s.used n
  obtain ⟨hnew, hother⟩ := h i (hle.trans hi) hlast
  exact ⟨hnew, fun j hj => hother j (hle.trans hj)⟩

def Transition.child? : Transition → Option Engine
  | .busy _ _ child => some child
  | _ => none

namespace Engine

variable {fitter : Fitter} {plan : Plan} {e fresh : Engine} {now : Timestamp} {snapshot : Snapshot}

/-- In every net that comes about, equal identities mean equal tokens. -/
theorem Reachable.coherent (hf : fitter.Regular) (h : Reachable World.identified fitter plan e) :
    e.lore.Coherent := by
  refine h.keeps hf (I := fun e => e.lore.Coherent) (A := fun _ => True) ?_ ?_ ?_
    (fun _ => trivial) (fun _ _ _ _ => trivial) ?_ ?_
  · intro e hbuild path t ht
    have hb := built_of_build hbuild
    exact absurd ht (not_mentionsAt hb.empty (fun slot hs => (hb.fresh hs).2.2)
      (fun slot hs => hb.vacant hs) path t)
  · intro e call s events e' s' lore' hsteady he starts hopens hcourse fresh
    exact (hcourse.coherent hf hopens.fits (hsteady.opened_coherent he starts) fresh).2
  · intro e now he
    rw [lore_pause]
    exact he
  · intro e snapshot hbuild _
    have hall := Snapshot.throughout_of_forall (fun _ => True.intro) snapshot
    have hstocked := (restore_throughout hf hall hbuild).2
    exact coherent_of_stocked (hstocked.imp fun e ⟨snapshot, _, hs⟩ => ⟨snapshot, hs⟩)
  · exact fun _ he => he.anti (lore_dispose _)

/-- A net put to sleep knows of no tokens but those that it knew before. -/
theorem mentions_slumber {now : Timestamp} (hpause : (e.pause now).1 = e.slumber) {t : Token}
    (ht : e.slumber.Mentions t) : e.Mentions t := by
  obtain ⟨path, ht⟩ := ht
  have hmem : t ∈ (e.pause now).1.lore path := hpause ▸ ht
  rw [lore_pause] at hmem
  exact ⟨path, hmem⟩

/-- A net that has taken in the snapshot of another one is the other one as it was put
to sleep, with every token, every seat and every net within. If they are paused again,
the snapshots differ in nothing but the time; and the same calls are answered alike by
the two, but for the identities that each draws. -/
theorem restored_alike (h : Reachable World.identified .standard plan e)
    (live : e.status = .running ∨ e.status = .paused)
    (captured : (e.pause now).2 = .ok snapshot) (built : build .standard plan = .ok fresh)
    (accepted : (fresh.restore snapshot).2 = .ok ()) :
    (e.pause now).1 = e.slumber ∧ (fresh.restore snapshot).1 = e.slumber ∧
    (fresh.restore snapshot).1.Throughout (fun e => e.status = .paused) ∧
    (∀ later, ((e.pause now).1.pause later).2 = .ok (snapshot.stamped later) ∧
      ((fresh.restore snapshot).1.pause later).2 = .ok (snapshot.stamped later)) ∧
    ∀ {fuel : Nat} {calls : List Call} {s last : Supply} {outcomes : List Outcome},
      (fresh.restore snapshot).1.session fuel s calls = some (outcomes, last) →
      Supply.Fresh (fresh.restore snapshot).1.Mentions s last →
      ∃ n, last = s.skip n ∧ ∀ s', Supply.Fresh (e.pause now).1.Mentions s' (s'.skip n) →
        ∃ ρ : Equiv.Perm TokenId, (∀ t, (e.pause now).1.Mentions t → ρ t.id = t.id) ∧
          (e.pause now).1.session fuel s' (calls.map (Call.rename ρ)) =
            some (outcomes.map (Outcome.rename ρ), s'.skip n) := by
  have hf := Fitter.standard_regular
  have hsteady := h.steady hf
  have hsleepy : e.Throughout Sleepy := by
    rcases live with hrunning | hpaused
    · exact (hsteady.running hrunning).sleepy
    · exact (hsteady.paused hpaused).sleepy
  have hpause := pause_sleepy hsleepy now
  rw [hpause] at captured
  obtain rfl := Except.ok.inj captured
  obtain rfl : e.outline = fresh := by
    have hbuild := hsteady.fits.here.1
    rw [hsteady.runs] at hbuild
    exact Except.ok.inj (hbuild.symm.trans built)
  have hback : (e.outline.restore (e.captured now)).1 = e.slumber :=
    restore_captured hsleepy hsteady.fits (h.coherent hf) (Prod.ext rfl accepted)
  have hasleep := slumber_asleep hsleepy
  have hfits : e.slumber.Throughout (Fits .standard) := by
    have hpaused := fits_pause hsteady.fits now
    rwa [hpause] at hpaused
  have hagain : ∀ later, (e.slumber.pause later).2 = .ok ((e.captured now).stamped later) := by
    intro later
    rw [pause_sleepy hasleep.sleepy later, captured_slumber hsleepy]
  rw [hback, hpause]
  refine ⟨rfl, rfl, hasleep.imp fun e he => he.paused, fun later => ⟨hagain later, hagain later⟩, ?_⟩
  intro fuel calls s last outcomes answers hfresh
  obtain ⟨n, rfl, -⟩ := mirrors_session (ρ := Equiv.refl TokenId) fuel calls e.slumber s _ answers
  exact ⟨n, rfl, fun s' hfresh' => session_alike hasleep hfits answers hfresh hfresh'⟩

/-- A plan that serves in halves what the kitchen has cooked. -/
def banquet : Plan where
  id := "banquet"
  version := 1
  places := [{ id := "guest", role := .start }, { id := "table" }, { id := "left" },
    { id := "right" }, { id := "home", role := .terminal }]
  steps := [⟨"order", none, ["guest"], ["table"], .nested kitchen (.ofList [("dish", 0)])⟩,
    ⟨"serve", none, ["table"], ["left", "right"], .split⟩,
    ⟨"eat", none, ["left"], ["home"], .task "eat"⟩]

/-- A kitchen that cooks is brought back, and whichever halves are then made of the dish,
the rest of the meal is the same. -/
theorem banquet_alike : ∃ (fresh : Engine) (first : Run) (snapshot : Snapshot)
    (outcomes : List Outcome), build .standard banquet = .ok fresh ∧
    fresh.answer 40 counting (.start whole) = some first ∧ first.engine.status = .running ∧
    (first.engine.pause default).2 = .ok snapshot ∧ (fresh.restore snapshot).2 = .ok () ∧
    (fresh.restore snapshot).1 = (first.engine.pause default).1 ∧
    (fresh.restore snapshot).1.session 40 first.supply
      [.resume, .complete ["order", "cook"] ⟨1⟩ 0] = some (outcomes, first.supply.skip 2) ∧
    outcomes.length = 2 ∧ ∃ ρ : Equiv.Perm TokenId,
      (first.engine.pause default).1.session 40 (first.supply.skip 2)
        ([.resume, .complete ["order", "cook"] ⟨1⟩ 0].map (Call.rename ρ)) =
          some (outcomes.map (Outcome.rename ρ), (first.supply.skip 2).skip 2) := by
  have hfacts : ((build .standard banquet).toOption.bind fun e =>
      (e.answer 40 counting (.start whole)).bind fun first =>
        (first.engine.slumber.session 40 first.supply
          [.resume, .complete ["order", "cook"] ⟨1⟩ 0]).map fun x =>
            (first.supply.used, first.engine.status, decide first.engine.Exclusive,
              (first.engine.slots.all fun slot => slot.transition.child?.all fun child =>
                decide child.Exclusive && child.slots.all (·.transition.nest?.isNone)),
              x.2.used, x.1.length)) = some (1, .running, true, true, 3, 2) := by
    decide +kernel
  obtain ⟨fresh, hbuild⟩ : ∃ e, build .standard banquet = .ok e := ⟨_, rfl⟩
  rw [hbuild] at hfacts
  change (fresh.answer 40 counting (.start whole)).bind _ = _ at hfacts
  obtain ⟨first, hfirst, hfacts⟩ := Option.bind_eq_some_iff.1 hfacts
  obtain ⟨⟨outcomes, last⟩, hsession, hfacts⟩ := Option.map_eq_some_iff.1 hfacts
  simp only [Prod.mk.injEq] at hfacts
  obtain ⟨hused, hrunning, hexclusive, hinner, hlast, hlength⟩ := hfacts
  have hf := Fitter.standard_regular
  have hproper : ∀ t, Call.start whole = .start t → t.Proper := fun t ht => by
    cases ht
    exact whole_proper
  have hfresh : Supply.Fresh (fresh.opened (.start whole)).Mentions counting ⟨counting.draw, 5⟩ :=
    counting_fresh hbuild 5 (by decide)
  have hreachable : Reachable World.identified .standard banquet first.engine :=
    .called (.built hbuild) hproper hfirst (hfresh.anti (by rw [hused]; decide))
  obtain ⟨-, hlater⟩ := (Raised.built hbuild).further hf hproper hfirst hfresh (by rw [hused]; decide)
  have hall : first.engine.Throughout Exclusive := by
    refine .intro (of_decide_eq_true hexclusive) fun slot hs nest t child hbusy => ?_
    have hchild := List.all_eq_true.1 hinner slot hs
    rw [hbusy] at hchild
    obtain ⟨hown, hflat⟩ := Bool.and_eq_true_iff.1 hchild
    refine .intro (of_decide_eq_true hown) fun slot' hs' nest' t' child' hbusy' => ?_
    have hnone := List.all_eq_true.1 hflat slot' hs'
    rw [hbusy'] at hnone
    cases hnone
  have hpause := pause_eq ((hreachable.steady hf).running hrunning).pausable default
  have hcaptured := congrArg Prod.snd hpause
  have haccepted : (fresh.restore (first.engine.captured default)).2 = .ok () := by
    rcases hreachable.recovery hcaptured hbuild with ⟨-, hok, -⟩ | ⟨hdouble, -⟩
    · exact hok
    · exact absurd hall hdouble
  obtain ⟨hpaused, hback, -, -, halike⟩ :=
    restored_alike hreachable (.inl hrunning) hcaptured hbuild haccepted
  have hasleep := hlater.of_known fun t => mentions_slumber hpaused
  rw [hback, hpaused] at halike
  obtain ⟨n, rfl, hmeet⟩ := halike hsession (hasleep.anti (by
    show last.used ≤ 5
    omega))
  obtain rfl : n = 2 := by
    have hdrawn : first.supply.used + n = 3 := hlast
    omega
  have htail : Supply.Fresh first.engine.slumber.Mentions (first.supply.skip 2)
      ((first.supply.skip 2).skip 2) := by
    rw [Supply.skip_skip]
    exact (hasleep.anti (by show first.supply.used + 4 ≤ 5; omega)).skip 2
  obtain ⟨ρ, -, hsame⟩ := hmeet (first.supply.skip 2) htail
  rw [← hback] at hsession
  rw [← hpaused] at hsame
  exact ⟨fresh, first, _, outcomes, hbuild, hfirst, hrunning, hcaptured, haccepted,
    hback.trans hpaused.symm, hsession, hlength, ρ, hsame⟩

end Engine
end RecipeNet
