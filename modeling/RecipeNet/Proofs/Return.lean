import RecipeNet.Proofs.Payload
import RecipeNet.Proofs.Restored
import RecipeNet.Proofs.Snapshot.File

/-!
Nets that come back from a file. A net that was started with a bare token and holds none twice is
restored from the file of its snapshot as it was put to sleep. It wakes up as the net that it was,
and waits for the same activities, if every token behind a join sits in the join.
-/

namespace RecipeNet.Engine

variable {fitter : Fitter} {plan : Plan} {e fresh : Engine} {t : Token} {now : Timestamp}
  {snapshot : Snapshot}

/-! ### What sleep leaves alone -/

theorem mem_slumber {slot : Slot} (hs : slot ∈ e.slots) : slot.slumber ∈ e.slumber.slots := by
  rw [slumber_eq]
  exact List.mem_map_of_mem hs

/-- What holds throughout a net asleep holds throughout the net if sleep does not bring it about. -/
theorem throughout_of_slumber {P : Engine → Prop} (awake : ∀ e : Engine, P e.slumber → P e)
    (h : e.slumber.Throughout P) : e.Throughout P := by
  have hall := throughout_of_forall (fun _ => True.intro) e
  induction hall with
  | @intro e _ inside ih =>
    refine .intro (awake e h.here) fun slot hs nest u child hbusy => ih slot hs nest u child hbusy ?_
    have hasleep : slot.slumber.transition = .busy nest u child.slumber := by
      rw [Slot.slumber, hbusy]
      rfl
    exact h.child (mem_slumber hs) hasleep

theorem seated_of_slumber (h : e.slumber.Seated) : e.Seated := by
  intro slot hs p hp hold hat u hu
  have hheld : e.slumber.holdings[p]? = some hold := by
    rw [slumber_eq]
    exact hat
  have hseats := h slot.slumber (mem_slumber hs) p hp hold hheld u hu
  rw [Slot.slumber] at hseats
  cases htr : slot.transition <;> rw [htr] at hseats <;> exact hseats

theorem work_slumber (e : Engine) : e.slumber.work = e.work := by
  have hkept : ∀ slot : Slot, slot.slumber.transition.taken = slot.transition.taken := by
    intro slot
    rw [Slot.slumber]
    cases slot.transition <;> rfl
  rw [work_eq, work_eq, slumber_eq, List.flatMap_map]
  simp only [hkept]

theorem exclusive_of_slumber (h : e.slumber.Exclusive) : e.Exclusive := by
  rwa [Exclusive, work_slumber] at h

/-- A net asleep waits for the same activities. -/
theorem awaited_slumber (e : Engine) : e.slumber.awaited = e.awaited := by
  have hall := throughout_of_forall (fun _ => True.intro) e
  induction hall with
  | @intro e _ inside ih =>
    have hslots : ∀ slot ∈ e.slots, slot.slumber.awaited = slot.awaited := by
      intro slot hs
      rw [Slot.awaited, Slot.awaited, Slot.slumber]
      cases htr : slot.transition with
      | busy nest u child =>
        rw [Transition.slumber, Transition.awaited, Transition.awaited, ih slot hs nest u child htr]
      | _ => rfl
    rw [awaited_eq, awaited_eq, slumber_eq, List.flatMap_map]
    exact List.flatMap_congr hslots

/-! ### From the file -/

/-- The tokens of a net that was started with a bare one are bare. -/
theorem payloads_bare (h : e.Carries t) (bare : t.effectivePayload = none)
    (captured : (e.pause now).2 = .ok snapshot) : snapshot.payloads = [] := by
  have hp := pausable_of_pause captured
  rw [pause_eq hp] at captured
  obtain rfl := Except.ok.inj captured
  have hnone : ∀ u : Token, u.Carries t.effectivePayload → u.payload = none := by
    intro u hu
    cases hparent : u.parent with
    | some parent => exact hu.bare parent hparent
    | none => rw [← Token.effectivePayload_whole hparent, hu.effective, bare]
  have hall : (e.captured now).Throughout (Snapshot.Bears fun _ => False) := by
    refine captured_throughout (throughout_mentions hp h.lore.payload) hp fun e he r hr v hv => ?_
    obtain ⟨u, hu, rfl⟩ := TokenTable.mem_registerAll (e.lore_closed []) (fun _ hu => mem_tokens hu)
      (List.forall_mem_nil _) r hr
    have hpayload : u.payload = some v := by
      obtain ⟨id, payload, parent⟩ := u
      exact hv
    cases (hnone u (he [] u hu)).symm.trans hpayload
  exact List.eq_nil_iff_forall_not_mem.2 (Snapshot.throughout_bears.1 hall)

/-- A new net is any net of the plan without what it holds. -/
theorem Steady.outline_eq (h : e.Steady fitter plan) (built : build fitter plan = .ok fresh) :
    e.outline = fresh := by
  have hbuild := h.fits.here.1
  rw [h.runs] at hbuild
  exact Except.ok.inj (hbuild.symm.trans built)

/-- What is restored from the file of a snapshot is the net as it was put to sleep. -/
theorem Reachable.returns (h : Reachable (World.solely t) .standard plan e) (made : t.Made)
    (bare : t.effectivePayload = none) (running : e.status = .running) (time : now.Genuine)
    (captured : (e.pause now).2 = .ok snapshot) (shallow : (Data.ofJson snapshot.toJson).depth ≤ 127)
    (built : build .standard plan = .ok fresh) (exclusive : e.Throughout Exclusive) :
    Snapshot.ofFileText? snapshot.fileText = some snapshot ∧
      fresh.restore snapshot = (e.slumber, .ok ()) := by
  have hf := Fitter.standard_regular
  have hsteady := h.steady hf
  have hsleepy := (hsteady.running running).sleepy
  have hcarries := h.carries hf made
  have hpayloads := payloads_bare hcarries bare captured
  have hplain : ∀ v ∈ snapshot.payloads, v.Plain := hpayloads ▸ List.forall_mem_nil _
  have hnulls : .null ∉ snapshot.payloads := hpayloads ▸ List.not_mem_nil
  have haccepted : (fresh.restore snapshot).2 = .ok () := by
    rcases h.recovery captured built with ⟨-, hok, -⟩ | ⟨hdouble, -⟩
    · exact hok
    · exact absurd exclusive hdouble
  constructor
  · rw [Snapshot.ofFileText?_fileText (genuine_of_pause captured time hplain), if_pos shallow,
      Snapshot.withoutNulls_eq_self.2 hnulls]
  · obtain rfl := hsteady.outline_eq built
    rw [pause_sleepy hsleepy] at captured
    obtain rfl := Except.ok.inj captured
    have hback := restore_captured hsleepy hsteady.fits hcarries.coherent (Prod.ext rfl haccepted)
    exact Prod.ext hback haccepted

/-- A net that is woken up is the net that was put to sleep. -/
theorem Reachable.wakes {w : World} (h : Reachable w .standard plan e) (running : e.status = .running)
    (seated : e.Throughout Seated) :
    ∃ n, ∀ fuel, n ≤ fuel → ∀ s, resume fuel e.slumber s = some ⟨e, s, e.awaited, .ok ()⟩ := by
  have hf := Fitter.standard_regular
  have hawake : e.Awake := (h.steady hf).running running
  obtain ⟨n, hn⟩ := resume_seated default (((hawake.and seated).and (h.full hf)).imp
    fun e he => ⟨he.1.1, he.1.2, he.2⟩)
  rw [pause_sleepy hawake.sleepy] at hn
  exact ⟨n, hn⟩

/-- A net that goes on as it was before it slept keeps its identities if the sleeping one does. -/
theorem Steady.rename_of_resumed {ρ : Equiv.Perm TokenId} (h : e.Steady .standard plan)
    (running : e.status = .running) {fuel : Nat} (s : Supply)
    (resumes : ∀ s, resume fuel e.slumber s = some ⟨e, s, e.awaited, .ok ()⟩)
    (fixed : ∀ t, e.slumber.Mentions t → ρ t.id = t.id) :
    e.rename ρ = e ∧ e.awaited.map (Event.rename ρ) = e.awaited := by
  have hsleepy := (h.running running).sleepy
  have hfits : e.slumber.Throughout (Fits .standard) := by
    have hpaused := fits_pause h.fits default
    rwa [pause_sleepy hsleepy] at hpaused
  obtain ⟨n, hn, hother⟩ := mirrors_resume (ρ := ρ) fuel e.slumber s _ (resumes s)
  obtain rfl : n = 0 := by
    have hused : s.used = s.used + n := congrArg Supply.used hn
    omega
  have hsame := hother s fun i hi => absurd hi (Nat.not_lt_zero i)
  dsimp only at hsame
  rw [rename_of_fixed (slumber_asleep hsleepy) hfits fixed, resumes] at hsame
  obtain ⟨hengine, -, hevents, -⟩ := Run.mk.inj (Option.some.inj hsame)
  exact ⟨hengine.symm, hevents.symm⟩

end RecipeNet.Engine
