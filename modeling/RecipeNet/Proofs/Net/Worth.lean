import Mathlib.Algebra.BigOperators.Group.Multiset.Basic
import Mathlib.Algebra.Order.BigOperators.Group.Multiset
import Mathlib.Algebra.Order.Ring.Rat
import Mathlib.Data.Nat.Cast.Order.Ring
import Mathlib.Tactic.Linarith
import RecipeNet.Proofs.Net.Chronicle

/-!
What tokens are worth. If a net never splits a token into more parts than each
of its joins takes together, then a sibling counts as one of so many parts of its
parent, and all that is held is never worth more than one of any token. So
nothing is held twice, and nothing is split while parts of it are still held.
-/

namespace RecipeNet

open Classical in
/-- How much of a token another one is worth, if each split divides a token into
so many parts. -/
noncomputable def Token.share (parts : Nat) (o : Token) : Token → ℚ
  | ⟨id, payload, some parent⟩ =>
    if ⟨id, payload, some parent⟩ = o then 1 else share parts o parent / parts
  | ⟨id, payload, none⟩ => if ⟨id, payload, none⟩ = o then 1 else 0

namespace Token

variable {parts : Nat} {o t u : Token}

theorem share_self (parts : Nat) (t : Token) : share parts t t = 1 := by
  obtain ⟨id, payload, _ | parent⟩ := t <;> exact if_pos rfl

theorem share_parent (h : u.parent = some t) (hne : u ≠ o) :
    share parts o u = share parts o t / parts := by
  obtain ⟨id, payload, _⟩ := u
  cases h
  exact if_neg hne

theorem share_nonneg (parts : Nat) (o : Token) : (u : Token) → 0 ≤ share parts o u
  | ⟨id, payload, some parent⟩ => by
    rw [share]
    split
    · exact zero_le_one
    · exact div_nonneg (share_nonneg parts o parent) (Nat.cast_nonneg parts)
  | ⟨id, payload, none⟩ => by
    rw [share]
    split
    · exact zero_le_one
    · exact le_rfl

theorem share_le_one (hparts : 0 < parts) (o : Token) : (u : Token) → share parts o u ≤ 1
  | ⟨id, payload, some parent⟩ => by
    rw [share]
    split
    · exact le_rfl
    · have hone : (1 : ℚ) ≤ parts := Nat.one_le_cast.2 hparts
      exact div_le_one_of_le₀ ((share_le_one hparts o parent).trans hone) (Nat.cast_nonneg parts)
  | ⟨id, payload, none⟩ => by
    rw [share]
    split
    · exact le_rfl
    · exact zero_le_one

theorem share_pos (hparts : 0 < parts) : (u : Token) → o ∈ u :: u.ancestry → 0 < share parts o u
  | ⟨id, payload, some parent⟩, ho => by
    rw [share]
    split
    · exact zero_lt_one
    · rename_i hne
      rw [ancestry] at ho
      have hup := (List.mem_cons.1 ho).resolve_left fun heq => hne heq.symm
      exact div_pos (share_pos hparts parent hup) (Nat.cast_pos.2 hparts)
  | ⟨id, payload, none⟩, ho => by
    rw [ancestry] at ho
    rw [List.mem_singleton.1 ho, share_self]
    exact zero_lt_one

theorem share_eq_zero : (u : Token) → o ∉ u :: u.ancestry → share parts o u = 0
  | ⟨id, payload, some parent⟩, ho => by
    rw [ancestry] at ho
    have hne : (⟨id, payload, some parent⟩ : Token) ≠ o := fun heq => ho (heq ▸ List.mem_cons_self)
    rw [share, if_neg hne, share_eq_zero parent fun hup => ho (List.mem_cons_of_mem _ hup), zero_div]
  | ⟨id, payload, none⟩, ho => by
    have hne : (⟨id, payload, none⟩ : Token) ≠ o := fun heq => ho (heq ▸ List.mem_cons_self)
    rw [share, if_neg hne]

end Token

noncomputable def worth (parts : Nat) (o : Token) (held : Multiset Token) : ℚ :=
  (held.map (Token.share parts o)).sum

section Worth

variable {parts : Nat} {o t : Token}

theorem worth_add (parts : Nat) (o : Token) (xs ys : Multiset Token) :
    worth parts o (xs + ys) = worth parts o xs + worth parts o ys := by
  rw [worth, Multiset.map_add, Multiset.sum_add]
  rfl

theorem worth_cons (parts : Nat) (o t : Token) (held : Multiset Token) :
    worth parts o (t ::ₘ held) = Token.share parts o t + worth parts o held := by
  rw [worth, Multiset.map_cons, Multiset.sum_cons]
  rfl

theorem worth_nonneg (parts : Nat) (o : Token) (held : Multiset Token) : 0 ≤ worth parts o held :=
  Multiset.sum_nonneg fun x hx => by
    obtain ⟨u, -, rfl⟩ := Multiset.mem_map.1 hx
    exact Token.share_nonneg parts o u

/-- Siblings other than the token itself are worth an equal part of theirs each. -/
theorem worth_siblings {us : List Token} (siblings : ∀ u ∈ us, u.parent = some t) (ho : o ∉ us) :
    worth parts o us = us.length * (Token.share parts o t / parts) := by
  induction us with
  | nil =>
    rw [List.length_nil, Nat.cast_zero, zero_mul]
    rfl
  | cons u rest ih =>
    obtain ⟨hu, hrest⟩ := List.forall_mem_cons.1 siblings
    rw [← Multiset.cons_coe, worth_cons, ih hrest fun h => ho (List.mem_cons_of_mem _ h),
      Token.share_parent hu fun heq => ho (heq ▸ List.mem_cons_self), List.length_cons, Nat.cast_succ,
      add_mul, one_mul, add_comm]

theorem worth_eq_zero {held : Multiset Token} (h : ∀ u ∈ held, o ∉ u :: u.ancestry) :
    worth parts o held = 0 :=
  Multiset.sum_eq_zero fun x hx => by
    obtain ⟨u, hu, rfl⟩ := Multiset.mem_map.1 hx
    exact Token.share_eq_zero u (h u hu)

/-- Siblings are worth one of each of them. -/
theorem worth_sibling {us : List Token} (siblings : ∀ u ∈ us, u.parent = some t)
    (distinct : us.Nodup) (ho : o ∈ us) : worth parts o us = 1 := by
  obtain ⟨front, back, rfl⟩ := List.append_of_mem ho
  have hmove : ((front ++ o :: back : List Token) : Multiset Token) =
      o ::ₘ ((front ++ back : List Token) : Multiset Token) :=
    Multiset.coe_eq_coe.2 List.perm_middle
  have hothers : o ∉ front ++ back := (List.nodup_cons.1 (List.perm_middle.nodup distinct)).1
  rw [hmove, worth_cons, Token.share_self, worth_eq_zero, add_zero]
  intro u hu hup
  have hmem : u ∈ front ++ o :: back := List.perm_middle.symm.subset (List.mem_cons_of_mem _ hu)
  rcases List.mem_cons.1 hup with rfl | hup
  · exact hothers hu
  · rw [Token.ancestry_eq (siblings u hmem)] at hup
    exact Token.notMem_parent (siblings o ho) hup

/-- A token that is worth no more than itself is there only once, and nothing that
comes from it. -/
theorem alone_of_worth (hparts : 0 < parts) {rest : Multiset Token}
    (h : worth parts t (t ::ₘ rest) ≤ 1) : ∀ u ∈ rest, t ∉ u :: u.ancestry := by
  intro u hu ht
  obtain ⟨more, rfl⟩ := Multiset.exists_cons_of_mem hu
  rw [worth_cons, worth_cons, Token.share_self] at h
  have hpos := Token.share_pos hparts u ht
  have hmore := worth_nonneg parts t more
  linarith

end Worth

def Gathers (slots : List Slot) : Prop :=
  ∀ s ∈ slots, s.transition.outline = .split → ∀ j ∈ slots, ∀ n,
    j.transition.outline = .join n [] → s.outputs.length ≤ j.inputs.length

/-- The most parts that a step splits a token into. -/
theorem exists_parts (slots : List Slot) : ∃ parts, 0 < parts ∧
    (∀ s ∈ slots, s.transition.outline = .split → s.outputs.length ≤ parts) ∧
      (parts = 1 ∨ ∃ s ∈ slots, s.transition.outline = .split ∧ s.outputs.length = parts) := by
  induction slots with
  | nil => exact ⟨1, Nat.one_pos, List.forall_mem_nil _, .inl rfl⟩
  | cons slot rest ih =>
    obtain ⟨parts, hpos, hmost, hone⟩ := ih
    by_cases hmore : slot.transition.outline = .split ∧ parts < slot.outputs.length
    · refine ⟨slot.outputs.length, by omega, List.forall_mem_cons.2 ⟨fun _ => le_rfl, fun s hs hsplit =>
        (hmost s hs hsplit).trans hmore.2.le⟩, .inr ⟨slot, List.mem_cons_self, hmore.1, rfl⟩⟩
    · refine ⟨parts, hpos, List.forall_mem_cons.2 ⟨fun hsplit => ?_, hmost⟩, ?_⟩
      · exact Nat.le_of_not_lt fun hlt => hmore ⟨hsplit, hlt⟩
      · exact hone.imp_right fun ⟨s, hs, hsplit⟩ => ⟨s, List.mem_cons_of_mem _ hs, hsplit⟩

namespace Chronicle

variable {slots : List Slot} {past : List Deed} {held : Multiset Token} {parts : Nat}

/-- What is held is never worth more than one of any token. -/
theorem worth_le (h : Chronicle slots past held) (hparts : 0 < parts)
    (splits : ∀ s ∈ slots, s.transition.outline = .split → s.outputs.length ≤ parts)
    (joins : ∀ j ∈ slots, ∀ n, j.transition.outline = .join n [] → 0 < j.inputs.length →
      parts ≤ j.inputs.length) (o : Token) : worth parts o held ≤ 1 := by
  have hpos : (0 : ℚ) < parts := Nat.cast_pos.2 hparts
  induction h with
  | nil => exact zero_le_one
  | @cons past deed earlier allowed ih =>
    cases allowed with
    | enter t =>
      rw [Deed.after, worth, Multiset.map_singleton, Multiset.sum_singleton]
      exact Token.share_le_one hparts o t
    | carry => exact ih
    | @split slot t made rest stands kind each siblings distinct fresh =>
      rw [Deed.before, worth_cons] at ih
      rw [Deed.after, worth_add]
      -- The parts are worth no more than the whole, since there are not too many of them.
      by_cases ho : o ∈ made
      · have hrest : worth parts o rest = 0 := worth_eq_zero fun v hv hup =>
          fresh o ho v (Multiset.mem_cons_of_mem hv) o hup rfl
        rw [worth_sibling siblings distinct.of_map ho, hrest, add_zero]
      · have hmost : (made.length : ℚ) ≤ parts := Nat.cast_le.2 (each ▸ splits slot stands kind)
        have hshare := Token.share_nonneg parts o t
        have hparted : made.length * (Token.share parts o t / parts) ≤ Token.share parts o t := by
          rw [mul_div_assoc', div_le_iff₀ hpos, mul_comm]
          exact mul_le_mul_of_nonneg_left hmost hshare
        rw [worth_siblings siblings ho]
        linarith
    | @join slot t taken rest stands kind each takes siblings distinct =>
      rw [Deed.before, worth_add] at ih
      rw [Deed.after, worth_cons]
      -- A join takes enough parts to make up for the whole.
      by_cases ho : o ∈ taken
      · have hgone : Token.share parts o t = 0 :=
          Token.share_eq_zero t (Token.notMem_parent (siblings o ho))
        have htaken := worth_nonneg parts o taken
        linarith
      · obtain ⟨n, hn⟩ := kind
        have hsome : 0 < slot.inputs.length := each ▸ List.length_pos_iff.2 takes
        have henough : (parts : ℚ) ≤ taken.length :=
          Nat.cast_le.2 (each ▸ joins slot stands n hn hsome)
        have hshare := Token.share_nonneg parts o t
        have hwhole : Token.share parts o t ≤ taken.length * (Token.share parts o t / parts) := by
          rw [mul_div_assoc', le_div_iff₀ hpos, mul_comm]
          exact mul_le_mul_of_nonneg_right henough hshare
        rw [worth_siblings siblings ho] at ih
        linarith

end Chronicle

namespace Gathers

variable {slots : List Slot} {past : List Deed} {held : Multiset Token}

/-- In a net that gathers, each token that is held is held once, and nothing that
comes from it. -/
theorem alone (hslots : Gathers slots) {t : Token} {rest : Multiset Token}
    (h : Chronicle slots past (t ::ₘ rest)) : ∀ u ∈ rest, t ∉ u :: u.ancestry := by
  obtain ⟨parts, hparts, splits, hone⟩ := exists_parts slots
  have hjoins : ∀ j ∈ slots, ∀ n, j.transition.outline = .join n [] → 0 < j.inputs.length →
      parts ≤ j.inputs.length := by
    intro j hj n hn hsome
    rcases hone with rfl | ⟨s, hs, hsplit, rfl⟩
    · exact hsome
    · exact hslots s hs hsplit j hj n hn
  exact alone_of_worth hparts (h.worth_le hparts splits hjoins t)

theorem nodup (hslots : Gathers slots) (h : Chronicle slots past held) : held.Nodup := by
  refine Multiset.nodup_iff_ne_cons_cons.2 fun t rest heq => ?_
  subst heq
  exact hslots.alone h t (Multiset.mem_cons_self _ _) List.mem_cons_self

/-- In a net that gathers, no token is split while parts of it are still held. -/
theorem clean (hslots : Gathers slots) (h : Chronicle slots past held) (o : Token) :
    ∀ deed ∈ past, ¬ deed.Hasty o := by
  intro deed hdeed hhasty
  obtain ⟨later, earlier, rfl⟩ := List.append_of_mem hdeed
  have hbefore := (h.split_at rfl).1
  cases deed with
  | split step t made rest =>
    obtain ⟨rfl, u, hu, hup⟩ := hhasty
    exact hslots.alone hbefore u hu (List.mem_cons_of_mem _ hup)
  | _ => exact hhasty

end Gathers
end RecipeNet
