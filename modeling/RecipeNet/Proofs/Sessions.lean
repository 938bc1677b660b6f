import Mathlib.Logic.Equiv.Basic
import RecipeNet.Proofs.Asks
import RecipeNet.Proofs.History

/-!
Sequences of calls. Two nets that are alike answer the same calls alike, but for the
identities that they draw in between: there is a replacement of identities, which leaves
those alone that were known before, and with which the answers are the same.
-/

namespace RecipeNet

open Engine (Call)

section

variable {ρ : Equiv.Perm TokenId}

namespace Engine

def session (fuel : Nat) (e : Engine) (s : Supply) : List Call → Option (List Outcome × Supply)
  | [] => some ([], s)
  | call :: rest => (e.answer fuel s call).bind fun run =>
    (session fuel run.engine run.supply rest).map fun x => (run.outcome :: x.1, x.2)

theorem session_eq_asked (fuel : Nat) (calls : List Call) (e : Engine) (s : Supply) :
    e.session fuel s calls = e.asked fuel s (calls.map .call) := by
  induction calls generalizing e s with
  | nil => rfl
  | cons call rest ih =>
    show (e.answer fuel s call).bind _ = (e.answer fuel s call).bind _
    simp only [ih]

/-- Whatever the calls are, one after the other. -/
theorem mirrors_session (fuel : Nat) (calls : List Call) (e : Engine) (s : Supply) :
    AnswersMirror ρ s (e.session fuel s calls)
      fun s' => (e.rename ρ).session fuel s' (calls.map (Call.rename ρ)) := by
  have hasks : (calls.map Ask.call).map (Ask.rename ρ) = (calls.map (Call.rename ρ)).map .call := by
    rw [List.map_map, List.map_map]
    rfl
  simp only [session_eq_asked, ← hasks]
  exact mirrors_asked fuel _ e s

end Engine

/-- Identities that are new to the same tokens replace each other. -/
theorem Supply.Fresh.exists_replacement {known : Token → Prop} {s s' : Supply} {n : Nat}
    (h : Fresh known s (s.skip n)) (h' : Fresh known s' (s'.skip n)) :
    ∃ ρ : Equiv.Perm TokenId, (∀ t, known t → ρ t.id = t.id) ∧ s.Replaces ρ n s' := by
  induction n with
  | zero => exact ⟨Equiv.refl TokenId, fun _ _ => rfl, fun i hi => absurd hi (Nat.not_lt_zero i)⟩
  | succ n ih =>
    have hle : ∀ u : Supply, (u.skip n).used ≤ (u.skip (n + 1)).used := fun u =>
      Nat.add_le_add_left (Nat.le_succ n) u.used
    obtain ⟨ρ, hfix, hold⟩ := ih (h.anti (hle s)) (h'.anti (hle s'))
    obtain ⟨hnew, hother⟩ := h (s.used + n) (Nat.le_add_right _ _) (Nat.lt_succ_self _)
    obtain ⟨hnew', hother'⟩ := h' (s'.used + n) (Nat.le_add_right _ _) (Nat.lt_succ_self _)
    -- The next identity is sent to its replacement; neither of the two is in use.
    refine ⟨ρ.trans (Equiv.swap (ρ (s.draw (s.used + n))) (s'.draw (s'.used + n))), ?_, ?_⟩
    · intro t ht
      have hkept : ρ t.id ≠ ρ (s.draw (s.used + n)) := fun heq => hnew t ht (ρ.injective heq)
      rw [Equiv.trans_apply, Equiv.swap_apply_of_ne_of_ne hkept, hfix t ht]
      rw [hfix t ht]
      exact hnew' t ht
    · intro i hi
      by_cases hlast : i = n
      · subst hlast
        rw [Equiv.trans_apply, Equiv.swap_apply_left]
      · have hlt : i < n := by omega
        have hkept : ρ (s.draw (s.used + i)) ≠ ρ (s.draw (s.used + n)) := fun heq =>
          hother (s.used + i) (Nat.le_add_right _ _) (by omega) (ρ.injective heq)
        have hkept' := hother' (s'.used + i) (Nat.le_add_right _ _) (by omega)
        rw [hold i hlt] at hkept'
        rw [Equiv.trans_apply, Equiv.swap_apply_of_ne_of_ne hkept hkept', hold i hlt]

end

section

variable {ρ : Equiv.Perm TokenId}

/-- A token is its own replacement if nothing that it comes from is replaced. -/
theorem Token.rename_of_fixed {known : Token → Prop}
    (closed : ∀ t, known t → ∀ parent, t.parent = some parent → known parent)
    (fixed : ∀ t, known t → ρ t.id = t.id) : (t : Token) → known t → t.rename ρ = t
  | ⟨id, payload, none⟩, ht => by
    have hid : ρ id = id := fixed _ ht
    rw [rename, hid]
  | ⟨id, payload, some parent⟩, ht => by
    have hid : ρ id = id := fixed _ ht
    rw [rename, hid, rename_of_fixed closed fixed parent (closed _ ht parent rfl)]

theorem Fitter.rename_standard : Fitter.rename ρ .standard = .standard := by
  funext step
  show Fitting.renameAnswer ρ (.ok (.standard step)) = .ok (.standard step)
  rw [Fitting.renameAnswer]
  congr 1
  unfold Fitting.standard
  cases step.kind <;> rfl

theorem Nest.rename_standard {nest : Nest} (h : nest.fitter = .standard) : nest.rename ρ = nest := by
  unfold rename
  rw [h, Fitter.rename_standard, ← h]

theorem Generation.rename_of_fixed {g : Generation} (h : ∀ t ∈ g.tokens, t.rename ρ = t) :
    g.rename ρ = g := by
  obtain ⟨parent, slots⟩ := g
  have hparent : parent.rename ρ = parent := h parent List.mem_cons_self
  have hslots : slots.map (fun slot => slot.map (Token.rename ρ)) = slots := by
    refine (List.map_congr_left fun slot hs => ?_).trans (List.map_id slots)
    cases slot with
    | none => rfl
    | some t =>
      have ht : t ∈ slots.filterMap id := List.mem_filterMap.2 ⟨some t, hs, rfl⟩
      exact congrArg some (h t (List.mem_cons_of_mem _ ht))
  rw [rename, hparent, hslots]

namespace Engine

variable {e : Engine}

/-- A net at rest is its own replacement if none of its identities is replaced. -/
theorem rename_of_fixed (hasleep : e.Asleep) (hfits : e.Throughout (Fits .standard))
    (fixed : ∀ t, e.Mentions t → ρ t.id = t.id) : e.rename ρ = e := by
  induction hasleep with
  | @intro e here inside ih =>
    have htoken : ∀ path t, e.MentionsAt path t → t.rename ρ = t := fun path =>
      Token.rename_of_fixed (fun t ht parent hparent => .parent ht hparent)
        fun t ht => fixed t ⟨path, ht⟩
    have htokens : ∀ ts : List Token, (∀ t ∈ ts, e.MentionsAt [] t) →
        ts.map (Token.rename ρ) = ts := fun ts hts =>
      (List.map_congr_left fun t ht => htoken [] t (hts t ht)).trans (List.map_id ts)
    have hholdings : e.holdings.map (Holding.rename ρ) = e.holdings := by
      refine (List.map_congr_left fun h hh => ?_).trans (List.map_id _)
      rw [Holding.rename, htokens h.tokens fun t ht => .place hh ht]
      rfl
    have hslots : e.slots.map (Slot.rename ρ) = e.slots := by
      refine (List.map_congr_left fun slot hs => ?_).trans (List.map_id _)
      have hkept : ∀ t ∈ slot.transition.tokens, e.MentionsAt [] t := fun t ht => .step hs ht
      have hsuits := (hfits.here.slot Fitter.standard_regular hs).suits
      have htransition : slot.transition.rename ρ = slot.transition := by
        cases htr : slot.transition with
        | pass | split => rfl
        | join inputs pending =>
          rw [htr] at hkept
          rw [Transition.rename]
          congr 1
          refine (List.map_congr_left fun g hg => ?_).trans (List.map_id _)
          exact Generation.rename_of_fixed fun t ht =>
            htoken [] t (hkept t (List.mem_flatMap.2 ⟨g, hg, ht⟩))
        | task activity held =>
          rw [htr] at hkept
          rw [Transition.rename, htokens held hkept]
        | routed rule seen => exact absurd htr (hfits.here.unrouted hs rule seen)
        | idle nest =>
          rw [htr] at hsuits
          rw [Transition.rename, Nest.rename_standard hsuits.2.1]
        | busy nest t child =>
          rw [htr] at hsuits hkept
          have ht : t.rename ρ = t := htoken [] t (hkept t List.mem_cons_self)
          have hchild : child.rename ρ = child := by
            refine ih slot hs nest t child htr (hfits.child hs htr) fun u hu => ?_
            obtain ⟨path, hu⟩ := hu
            exact fixed u ⟨slot.step :: path, .nested hs htr hu⟩
          rw [Transition.rename, Nest.rename_standard hsuits.2.1, ht, hchild]
      rw [Slot.rename, htransition]
      cases slot
      rfl
    rw [rename_eq, hholdings, hslots]
    have hcompletion := here.completion
    have hhalted := here.haltedBy
    cases e
    dsimp only at hcompletion hhalted
    subst hcompletion hhalted
    rfl

/-- A paused net answers the same calls alike whatever is drawn: what comes of one supply
of new identities comes of every other one, with replacements that leave what the net
knows alone. -/
theorem session_alike (hasleep : e.Asleep) (hfits : e.Throughout (Fits .standard)) {fuel n : Nat}
    {calls : List Call} {outcomes : List Outcome} {s s' : Supply}
    (answers : e.session fuel s calls = some (outcomes, s.skip n))
    (fresh : Supply.Fresh e.Mentions s (s.skip n)) (fresh' : Supply.Fresh e.Mentions s' (s'.skip n)) :
    ∃ ρ : Equiv.Perm TokenId, (∀ t, e.Mentions t → ρ t.id = t.id) ∧
      e.session fuel s' (calls.map (Call.rename ρ)) =
        some (outcomes.map (Outcome.rename ρ), s'.skip n) := by
  obtain ⟨ρ, hfixed, hreplaces⟩ := fresh.exists_replacement fresh'
  refine ⟨ρ, hfixed, ?_⟩
  obtain ⟨m, hm, hother⟩ := mirrors_session (ρ := ρ) fuel calls e s _ answers
  obtain rfl : n = m := by
    have hused : s.used + n = s.used + m := congrArg Supply.used hm
    omega
  have hsame := hother s' hreplaces
  rw [rename_of_fixed hasleep hfits hfixed] at hsame
  exact hsame

end Engine

end

end RecipeNet
