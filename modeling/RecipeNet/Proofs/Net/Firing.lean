import Mathlib.Algebra.Order.Group.Multiset
import Mathlib.Tactic.Abel
import RecipeNet.Net.Join

/-!
What a firing does to the places of a net. A firing that succeeds takes exactly
its tokens out of the places behind the inputs and puts exactly its products
into the places behind the outputs; nothing else moves. Places are compared as
multisets of tokens with positions, since removal changes the order.
-/

namespace RecipeNet

variable {α β : Type}

theorem exists_left_of_forall₂ {R : α → β → Prop} {xs : List α} {ys : List β} {y : β}
    (h : List.Forall₂ R xs ys) (hy : y ∈ ys) : ∃ x ∈ xs, R x y := by
  induction h with
  | nil => cases hy
  | cons hxy _ ih =>
    rcases List.mem_cons.1 hy with rfl | hy
    · exact ⟨_, List.mem_cons_self, hxy⟩
    · obtain ⟨x, hx, hr⟩ := ih hy
      exact ⟨x, List.mem_cons_of_mem _ hx, hr⟩

theorem forall₂_left_at {R : α → β → Prop} {xs : List α} {ys : List β} {y : β} {i : Nat}
    (h : List.Forall₂ R xs ys) (hy : ys[i]? = some y) : ∃ x, xs[i]? = some x ∧ R x y := by
  induction h generalizing i with
  | nil => cases hy
  | cons hxy _ ih =>
    cases i with
    | zero => exact ⟨_, rfl, Option.some.inj hy ▸ hxy⟩
    | succ i => exact ih hy

/-- A change that a function does not see changes nothing of what it maps to. -/
theorem map_set_same {f : α → β} {xs : List α} {i : Nat} {x y : α} (hx : xs[i]? = some x)
    (same : f y = f x) : (xs.set i y).map f = xs.map f := by
  obtain ⟨hlt, rfl⟩ := List.getElem?_eq_some_iff.1 hx
  have hmapped : i < (xs.map f).length := by rwa [List.length_map]
  rw [List.map_set, same, ← List.getElem_map f (h := hmapped), List.set_getElem_self]

/-- Changing one holder changes a sum over holders by what it counts for. -/
theorem sum_map_modify {α M : Type} [AddCommMonoid M] (f : α → M) (g : α → α) {xs : List α} {i : Nat}
    {x : α} (hx : xs[i]? = some x) :
    ((xs.modify i g).map f).sum + f x = (xs.map f).sum + f (g x) := by
  induction xs generalizing i with
  | nil => cases hx
  | cons y ys ih =>
    cases i with
    | zero =>
      obtain rfl : y = x := Option.some.inj hx
      simp only [List.modify_zero_cons, List.map_cons, List.sum_cons]
      abel
    | succ i =>
      simp only [List.modify_succ_cons, List.map_cons, List.sum_cons, add_assoc]
      rw [ih hx]

theorem sum_map_set {α M : Type} [AddCommMonoid M] (f : α → M) {xs : List α} {i : Nat} {x : α}
    (hx : xs[i]? = some x) (y : α) : ((xs.set i y).map f).sum + f x = (xs.map f).sum + f y := by
  rw [List.set_eq_modify]
  exact sum_map_modify f (fun _ => y) hx

/-- The tokens of a list of holders, each with the position of its holder. -/
def spreadFrom (f : α → List Token) (k : Nat) (xs : List α) : Multiset (Nat × Token) :=
  ((xs.zipIdx k).flatMap fun (x, i) => (f x).map (i, ·) : List (Nat × Token))

def spread (f : α → List Token) (xs : List α) : Multiset (Nat × Token) :=
  spreadFrom f 0 xs

theorem spreadFrom_cons (f : α → List Token) (k : Nat) (x : α) (xs : List α) :
    spreadFrom f k (x :: xs) = ((f x).map (k, ·) : List _) + spreadFrom f (k + 1) xs := by
  simp only [spreadFrom, List.zipIdx_cons, List.flatMap_cons, Multiset.coe_add]

theorem spreadFrom_modify (f : α → List Token) (g : α → α) (xs : List α) (k i : Nat) (x : α)
    (hx : xs[i]? = some x) :
    spreadFrom f k (xs.modify i g) + ((f x).map (k + i, ·) : List _) =
      spreadFrom f k xs + ((f (g x)).map (k + i, ·) : List _) := by
  induction xs generalizing k i with
  | nil => simp at hx
  | cons y ys ih =>
    cases i with
    | zero =>
      obtain rfl : y = x := by simpa using hx
      simp only [List.modify_zero_cons, spreadFrom_cons, Nat.add_zero]
      abel
    | succ i =>
      have hrest := ih (k + 1) i (by simpa using hx)
      have hk : k + 1 + i = k + (i + 1) := by omega
      rw [hk] at hrest
      simp only [List.modify_succ_cons, spreadFrom_cons, add_assoc]
      rw [hrest]

/-- Changing one holder changes the spread by the tokens of that holder. -/
theorem spread_modify (f : α → List Token) (g : α → α) {xs : List α} {i : Nat} {x : α}
    (hx : xs[i]? = some x) :
    spread f (xs.modify i g) + ((f x).map (i, ·) : List _) =
      spread f xs + ((f (g x)).map (i, ·) : List _) := by
  simpa only [spread, Nat.zero_add] using spreadFrom_modify f g xs 0 i x hx

theorem spread_set (f : α → List Token) {xs : List α} {i : Nat} {x : α} (y : α)
    (hx : xs[i]? = some x) :
    spread f (xs.set i y) + ((f x).map (i, ·) : List _) =
      spread f xs + ((f y).map (i, ·) : List _) := by
  rw [List.set_eq_modify]
  exact spread_modify f (fun _ => y) hx

theorem mem_spreadFrom {f : α → List Token} {k : Nat} {xs : List α} {i : Nat} {t : Token} :
    (i, t) ∈ spreadFrom f k xs ↔ ∃ j x, i = k + j ∧ xs[j]? = some x ∧ t ∈ f x := by
  simp only [spreadFrom, Multiset.mem_coe, List.mem_flatMap, List.mem_map, Prod.mk.injEq]
  constructor
  · rintro ⟨⟨x, j⟩, hmem, u, hu, rfl, rfl⟩
    obtain ⟨hle, hx⟩ := List.mem_zipIdx_iff_le_and_getElem?_sub.1 hmem
    exact ⟨j - k, x, by omega, hx, hu⟩
  · rintro ⟨j, x, rfl, hx, ht⟩
    refine ⟨(x, k + j), ?_, t, ht, rfl, rfl⟩
    exact List.mem_zipIdx_iff_le_and_getElem?_sub.2 ⟨by omega, by simpa using hx⟩

theorem mem_spread {f : α → List Token} {xs : List α} {i : Nat} {t : Token} :
    (i, t) ∈ spread f xs ↔ ∃ x, xs[i]? = some x ∧ t ∈ f x := by
  simp only [spread, mem_spreadFrom, Nat.zero_add]
  constructor
  · rintro ⟨j, x, rfl, hx, ht⟩
    exact ⟨x, hx, ht⟩
  · rintro ⟨x, hx, ht⟩
    exact ⟨i, x, rfl, hx, ht⟩

theorem spread_add {hs : List Holding} {place : Nat} (t : Token) (hp : place < hs.length) :
    spread Holding.tokens (hs.modify place (·.add t)) =
      (place, t) ::ₘ spread Holding.tokens hs := by
  have hone := spread_modify Holding.tokens (·.add t) (List.getElem?_eq_getElem hp)
  have hmade : (((hs[place].add t).tokens.map (place, ·) : List _) : Multiset _) =
      (place, t) ::ₘ ((hs[place].tokens.map (place, ·) : List _) : Multiset _) := by
    rw [Multiset.cons_coe, Multiset.coe_eq_coe, Holding.add, List.map_append]
    exact List.perm_append_comm
  rw [hmade, ← Multiset.singleton_add, ← add_assoc] at hone
  have hleft := add_right_cancel hone
  rw [← Multiset.singleton_add, add_comm]
  exact hleft

theorem mem_spread_add {hs : List Holding} {place : Nat} {t : Token} {x : Nat × Token}
    (h : x ∈ spread Holding.tokens (hs.modify place (·.add t))) :
    x ∈ spread Holding.tokens hs ∨ x.2 = t := by
  obtain ⟨hold, hat, hx⟩ := mem_spread.1 h
  rw [List.getElem?_modify] at hat
  cases hi : hs[x.1]? with
  | none => simp [hi] at hat
  | some old =>
    by_cases hp : place = x.1
    · obtain rfl : old.add t = hold := by simpa [hi, hp] using hat
      rcases List.mem_append.1 hx with hx | hx
      · exact .inl (mem_spread.2 ⟨old, hi, hx⟩)
      · exact .inr (List.mem_singleton.1 hx)
    · obtain rfl : old = hold := by simpa [hi, hp] using hat
      exact .inl (mem_spread.2 ⟨old, hi, hx⟩)

theorem Token.same_iff {a b : Token} : a.same b = true ↔ a.id = b.id := by
  simp [Token.same]

namespace Holding

theorem holds_iff {h : Holding} {t : Token} : h.holds t = true ↔ ∃ u ∈ h.tokens, u.id = t.id := by
  simp [holds, Token.same]

theorem swapRemove_perm {ts : List Token} {i : Nat} {t : Token} (ht : ts[i]? = some t) :
    ts.Perm (t :: swapRemove ts i) := by
  obtain ⟨front, back, rfl, rfl⟩ : ∃ front back, ts = front ++ t :: back ∧ i = front.length := by
    obtain ⟨hi, rfl⟩ := List.getElem?_eq_some_iff.1 ht
    exact ⟨ts.take i, ts.drop (i + 1), by simp, by simp; omega⟩
  rcases List.eq_nil_or_concat back with rfl | ⟨mid, last, rfl⟩
  · simp [swapRemove]
  · have hremoved : swapRemove (front ++ t :: (mid ++ [last])) front.length =
        front ++ last :: mid := by
      have hlast : (front ++ t :: (mid ++ [last])).getLast? = some last := by
        simp [List.getLast?_append, List.getLast?_cons]
      have hset : (front ++ t :: (mid ++ [last])).set front.length last =
          (front ++ last :: mid) ++ [last] := by simp
      rw [swapRemove, hlast]
      simp only [hset, List.dropLast_concat]
    rw [List.concat_eq_append, hremoved]
    refine List.perm_middle.trans (List.Perm.cons t (List.Perm.append_left front ?_))
    exact List.perm_append_singleton last mid

theorem remove_place {h h' : Holding} {t : Token} (hr : h.remove t = .ok h') :
    h'.place = h.place := by
  unfold remove at hr
  split at hr
  · cases hr; rfl
  · cases hr

/-- Removal takes out one token of the given identity and keeps the others. -/
theorem remove_perm {h h' : Holding} {t : Token} (hr : h.remove t = .ok h') :
    ∃ u, u.id = t.id ∧ h.tokens.Perm (u :: h'.tokens) := by
  unfold remove at hr
  split at hr
  · rename_i i hi
    cases hr
    obtain ⟨hlt, hsame, -⟩ := List.findIdx?_eq_some_iff_getElem.1 hi
    exact ⟨h.tokens[i], Token.same_iff.1 hsame,
      swapRemove_perm (List.getElem?_eq_getElem hlt)⟩
  · cases hr

theorem remove_of_holds {h : Holding} {t : Token} (hh : h.holds t = true) :
    ∃ h', h.remove t = .ok h' := by
  unfold remove
  split
  · exact ⟨_, rfl⟩
  · rename_i hnone
    rw [List.findIdx?_eq_none_iff] at hnone
    obtain ⟨u, hu, hid⟩ := holds_iff.1 hh
    exact absurd (Token.same_iff.2 hid) (by simp [hnone u hu])

theorem remove_error {h : Holding} {t : Token} {f : Fault} (hr : h.remove t = .error f) :
    f = .tokenNotHeld h.place.id t.id := by
  unfold remove at hr
  split at hr
  · cases hr
  · cases hr; rfl

end Holding

namespace Reaction

variable {r r' : Reaction}

theorem holds_iff {input : Nat} {t : Token} : r.holds input t = true ↔
    ∃ place h, r.inputs[input]? = some place ∧ r.holdings[place]? = some h ∧ h.holds t = true := by
  simp only [holds, input?, Option.any_eq_true, Option.bind_eq_some_iff]
  constructor
  · rintro ⟨h, ⟨place, hp, hh⟩, ht⟩
    exact ⟨place, h, hp, hh, ht⟩
  · rintro ⟨place, h, hp, hh, ht⟩
    exact ⟨h, ⟨place, hp, hh⟩, ht⟩

/-- Two views of one step at different moments: only places and records differ. -/
structure Follows (r' r : Reaction) : Prop where
  step : r'.step = r.step
  inputs : r'.inputs = r.inputs
  outputs : r'.outputs = r.outputs
  places : r'.holdings.map (·.place) = r.holdings.map (·.place)

theorem Follows.refl (r : Reaction) : r.Follows r := ⟨rfl, rfl, rfl, rfl⟩

theorem Follows.trans {a b c : Reaction} (hab : a.Follows b) (hbc : b.Follows c) : a.Follows c :=
  ⟨hab.step.trans hbc.step, hab.inputs.trans hbc.inputs, hab.outputs.trans hbc.outputs,
    hab.places.trans hbc.places⟩

theorem map_place_modify (hs : List Holding) (i : Nat) (t : Token) :
    (hs.modify i (·.add t)).map (·.place) = hs.map (·.place) := by
  apply List.ext_getElem?
  intro j
  simp only [List.getElem?_map, List.getElem?_modify]
  cases hs[j]? <;> by_cases hij : i = j <;> simp [hij, Holding.add]

/-- A removal takes one token of its identity from its place. -/
theorem spread_remove {hs : List Holding} {place : Nat} {h h' : Holding} {t : Token}
    (hat : hs[place]? = some h) (hrem : h.remove t = .ok h') : ∃ u, u.id = t.id ∧
      (place, u) ::ₘ spread Holding.tokens (hs.set place h') = spread Holding.tokens hs := by
  obtain ⟨u, hid, hperm⟩ := Holding.remove_perm hrem
  refine ⟨u, hid, ?_⟩
  have hone := spread_set Holding.tokens h' hat
  have hmoved : ((h.tokens.map (place, ·) : List _) : Multiset (Nat × Token)) =
      (place, u) ::ₘ ((h'.tokens.map (place, ·) : List _) : Multiset _) := by
    rw [Multiset.cons_coe, Multiset.coe_eq_coe]
    simpa using hperm.map (place, ·)
  rw [hmoved, ← Multiset.singleton_add, ← add_assoc] at hone
  rw [← Multiset.singleton_add, add_comm]
  exact add_right_cancel hone

/-- What a sequence of removals does, whether or not it gets to its end: each
entry that it gets past takes one token of its identity from its place. -/
theorem consume_spec (r : Reaction) (taken : List (Nat × Token)) :
    (r.consume taken).1.Follows r ∧
    (r.consume taken).1.produced = r.produced ∧ (r.consume taken).1.events = r.events ∧
    ∃ removed : List (Nat × Token),
      spread Holding.tokens (r.consume taken).1.holdings + (removed : Multiset _) =
        spread Holding.tokens r.holdings ∧
      ((∀ e ∈ taken, (r.input? e.1).isSome) → (r.consume taken).2 = .ok () →
        List.Forall₂ (fun e u => r.inputs[e.1]? = some u.1 ∧ u.2.id = e.2.id) taken removed) := by
  induction taken generalizing r with
  | nil => exact ⟨Follows.refl r, rfl, rfl, [], by simp [consume], fun _ _ => .nil⟩
  | cons e rest ih =>
    obtain ⟨input, t⟩ := e
    rw [consume]
    split
    · rename_i place h hplace hh
      have hat : r.holdings[place]? = some h := by simpa [input?, hplace] using hh
      split
      · rename_i h' hrem
        obtain ⟨hfol, hprod, hev, removed, hspread, hmatch⟩ :=
          ih { r with holdings := r.holdings.set place h' }
        have hplaces := map_set_same (f := Holding.place) hat (Holding.remove_place hrem)
        obtain ⟨u, hid, hone⟩ := spread_remove hat hrem
        refine ⟨hfol.trans ⟨rfl, rfl, rfl, hplaces⟩, hprod, hev, (place, u) :: removed, ?_, ?_⟩
        · rw [← Multiset.cons_coe, Multiset.add_cons, hspread]
          exact hone
        · intro hin hok
          refine .cons ⟨hplace, hid⟩ (hmatch (fun e he => ?_) hok)
          have hsome := hin e (List.mem_cons_of_mem _ he)
          simp only [input?, Option.isSome_bind, Option.any_eq_true] at hsome ⊢
          obtain ⟨q, hq, hsq⟩ := hsome
          refine ⟨q, hq, ?_⟩
          simpa using hsq
      · rename_i f hrem
        exact ⟨Follows.refl r, rfl, rfl, [], by simp, fun _ hok => by cases hok⟩
    · rename_i hnone
      obtain ⟨hfol, hprod, hev, removed, hspread, hmatch⟩ := ih r
      refine ⟨hfol, hprod, hev, removed, hspread, fun hin _ => ?_⟩
      have hsome := hin _ List.mem_cons_self
      obtain ⟨h, hh⟩ := Option.isSome_iff_exists.1 hsome
      obtain ⟨place, hp, -⟩ := Option.bind_eq_some_iff.1 hh
      exact absurd hh (hnone place h hp)

theorem consume_follows {taken : List (Nat × Token)} {result : Except Fault Unit}
    (hc : r.consume taken = (r', result)) : r'.Follows r := by
  have hspec := (consume_spec r taken).1
  rw [hc] at hspec
  exact hspec

theorem spread_consume {taken : List (Nat × Token)} {result : Except Fault Unit}
    (hc : r.consume taken = (r', result)) {x : Nat × Token}
    (hx : x ∈ spread Holding.tokens r'.holdings) : x ∈ spread Holding.tokens r.holdings := by
  obtain ⟨-, -, -, removed, hspread, -⟩ := consume_spec r taken
  rw [hc] at hspread
  rw [← hspread]
  exact Multiset.mem_add.2 (.inl hx)

theorem consume_error {taken : List (Nat × Token)} {f : Fault}
    (hf : (r.consume taken).2 = .error f) : ∃ place id, f = .tokenNotHeld place id := by
  induction taken generalizing r with
  | nil => simp [consume] at hf
  | cons e rest ih =>
    obtain ⟨input, t⟩ := e
    rw [consume] at hf
    split at hf
    · split at hf
      · exact ih hf
      · rename_i g hrem
        cases hf
        exact ⟨_, _, Holding.remove_error hrem⟩
    · exact ih hf

/-- Removals that fail although each token was there have taken some of them. -/
theorem consume_loses {taken : List (Nat × Token)} {f : Fault}
    (held : ∀ e ∈ taken, r.holds e.1 e.2 = true) (hf : r.consume taken = (r', .error f)) :
    ∃ removed : List (Nat × Token), removed ≠ [] ∧
      spread Holding.tokens r'.holdings + (removed : Multiset _) = spread Holding.tokens r.holdings := by
  cases taken with
  | nil => cases hf
  | cons e rest =>
    obtain ⟨input, t⟩ := e
    obtain ⟨place, h, hp, hat, ht⟩ := holds_iff.1 (held _ List.mem_cons_self)
    obtain ⟨h', hremove⟩ := Holding.remove_of_holds ht
    have hinput : r.input? input = some h := by
      rw [input?, hp]
      exact hat
    obtain ⟨u, -, hone⟩ := spread_remove hat hremove
    rw [consume, hp, hinput] at hf
    simp only [hremove] at hf
    obtain ⟨-, -, -, removed, hspread, -⟩ := consume_spec { r with holdings := r.holdings.set place h' } rest
    rw [hf] at hspread
    refine ⟨(place, u) :: removed, List.cons_ne_nil _ _, ?_⟩
    rw [← Multiset.cons_coe, Multiset.add_cons, hspread]
    exact hone

theorem holds_set {place : Nat} {h h' : Holding} {t u : Token} (hat : r.holdings[place]? = some h)
    (hremove : h.remove t = .ok h') (hne : u.id ≠ t.id) {input : Nat}
    (hheld : r.holds input u = true) :
    ({ r with holdings := r.holdings.set place h' } : Reaction).holds input u = true := by
  obtain ⟨p, hold, hp, hatp, hu⟩ := holds_iff.1 hheld
  refine holds_iff.2 ?_
  by_cases hsame : place = p
  · subst hsame
    obtain rfl := Option.some.inj (hat.symm.trans hatp)
    obtain ⟨hlt, -⟩ := List.getElem?_eq_some_iff.1 hat
    refine ⟨place, h', hp, by simp [hlt], ?_⟩
    obtain ⟨v, hv, hperm⟩ := Holding.remove_perm hremove
    obtain ⟨w, hw, hid⟩ := Holding.holds_iff.1 hu
    refine Holding.holds_iff.2 ⟨w, ?_, hid⟩
    rcases List.mem_cons.1 (hperm.mem_iff.1 hw) with rfl | hrest
    · exact absurd (hid.symm.trans hv) hne
    · exact hrest
  · refine ⟨p, hold, hp, ?_, hu⟩
    change (r.holdings.set place h')[p]? = some hold
    rw [List.getElem?_set_ne hsame]
    exact hatp

/-- Tokens that are held and told apart by their identities can all be taken. -/
theorem consume_distinct {taken : List (Nat × Token)}
    (held : ∀ e ∈ taken, r.holds e.1 e.2 = true) (distinct : (taken.map (·.2.id)).Nodup) :
    (r.consume taken).2 = .ok () := by
  induction taken generalizing r with
  | nil => rfl
  | cons e rest ih =>
    obtain ⟨input, t⟩ := e
    obtain ⟨hfirst, hrest⟩ := List.forall_mem_cons.1 held
    obtain ⟨hnew, hdistinct⟩ := List.nodup_cons.1 distinct
    obtain ⟨place, h, hp, hat, ht⟩ := holds_iff.1 hfirst
    obtain ⟨h', hremove⟩ := Holding.remove_of_holds ht
    have hinput : r.input? input = some h := by
      rw [input?, hp]
      exact hat
    rw [consume, hp, hinput]
    simp only [hremove]
    refine ih (fun e he => ?_) hdistinct
    refine holds_set hat hremove (fun heq => hnew ?_) (hrest e he)
    exact List.mem_map.2 ⟨e, he, heq⟩

theorem targets_ok {made placed : List (Nat × Token)} (ht : r.targets made = .ok placed) :
    List.Forall₂ (fun e p => r.outputs[e.1]? = some p.1 ∧ p.2 = e.2) made placed := by
  induction made generalizing placed with
  | nil =>
    cases ht
    exact .nil
  | cons e rest ih =>
    obtain ⟨output, t⟩ := e
    rw [targets, outputPlace] at ht
    cases hplace : r.outputs[output]? with
    | none => simp [hplace] at ht
    | some place =>
      cases hrest : r.targets rest with
      | error f => simp [hplace, hrest, Except.map] at ht
      | ok placed' =>
        simp only [hplace, hrest, Except.map, Except.ok.injEq] at ht
        subst ht
        exact .cons ⟨hplace, rfl⟩ (ih hrest)

theorem targets_error {made : List (Nat × Token)} {f : Fault} (ht : r.targets made = .error f) :
    ∃ e ∈ made, r.outputs[e.1]? = none ∧ f = .noSuchOutput r.step e.1 r.outputs.length := by
  induction made with
  | nil => cases ht
  | cons e rest ih =>
    obtain ⟨output, t⟩ := e
    rw [targets, outputPlace] at ht
    cases hplace : r.outputs[output]? with
    | none =>
      simp only [hplace, Except.error.injEq] at ht
      exact ⟨(output, t), List.mem_cons_self, hplace, ht.symm⟩
    | some place =>
      cases hrest : r.targets rest with
      | error g =>
        simp only [hplace, hrest, Except.map, Except.error.injEq] at ht
        obtain ⟨e, he, hout, hg⟩ := ih (hrest.trans (congrArg _ ht))
        exact ⟨e, List.mem_cons_of_mem _ he, hout, hg⟩
      | ok placed => simp [hplace, hrest, Except.map] at ht

theorem put_follows (r : Reaction) (place : Nat) (t : Token) : (r.put place t).Follows r :=
  ⟨rfl, rfl, rfl, map_place_modify r.holdings place t⟩

theorem spread_put {place : Nat} (t : Token) (hp : place < r.holdings.length) :
    spread Holding.tokens (r.put place t).holdings =
      (place, t) ::ₘ spread Holding.tokens r.holdings :=
  spread_add t hp

theorem putAll_spec (r : Reaction) (placed : List (Nat × Token)) :
    (placed.foldl (fun r e => r.put e.1 e.2) r).Follows r ∧
    (placed.foldl (fun r e => r.put e.1 e.2) r).produced = r.produced ++ placed ∧
    (placed.foldl (fun r e => r.put e.1 e.2) r).events = r.events ∧
    ((∀ e ∈ placed, e.1 < r.holdings.length) →
      spread Holding.tokens (placed.foldl (fun r e => r.put e.1 e.2) r).holdings =
        spread Holding.tokens r.holdings + (placed : Multiset _)) := by
  induction placed generalizing r with
  | nil => exact ⟨Follows.refl r, by simp, rfl, by simp⟩
  | cons e rest ih =>
    obtain ⟨hfol, hprod, hev, hspread⟩ := ih (r.put e.1 e.2)
    refine ⟨hfol.trans (put_follows r e.1 e.2), ?_, hev, fun hin => ?_⟩
    · rw [List.foldl_cons, hprod, put, List.append_assoc, List.singleton_append]
    · have hrest := hspread fun x hx => by
        simpa [put] using hin x (List.mem_cons_of_mem _ hx)
      rw [List.foldl_cons, hrest, spread_put _ (hin e List.mem_cons_self), ← Multiset.cons_coe,
        Multiset.cons_add, Multiset.add_cons]

theorem holdings_length (hfol : r'.Follows r) : r'.holdings.length = r.holdings.length := by
  simpa using congrArg List.length hfol.places

/-- A firing that succeeds: what it took, what it made, and what it left alone. -/
theorem fire_taken {taken made : List (Nat × Token)} (hf : r.fire taken made = (r', .ok true))
    (hout : ∀ p ∈ r.outputs, p < r.holdings.length) :
    (∀ e ∈ taken, r.holds e.1 e.2 = true) ∧ r'.Follows r ∧
    r'.events = r.events ++ [.fired (.ofStep r.step)] ∧
    ∃ removed placed : List (Nat × Token),
      List.Forall₂ (fun e u => r.inputs[e.1]? = some u.1 ∧ u.2.id = e.2.id) taken removed ∧
      List.Forall₂ (fun e p => r.outputs[e.1]? = some p.1 ∧ p.2 = e.2) made placed ∧
      r'.produced = r.produced ++ placed ∧
      ∃ rest, spread Holding.tokens r.holdings = rest + (removed : Multiset _) ∧
        spread Holding.tokens r'.holdings = rest + (placed : Multiset _) := by
  rw [fire] at hf
  split at hf
  · cases hf
  · rename_i placed htargets
    split at hf
    · rename_i hall
      have hheld : ∀ e ∈ taken, r.holds e.1 e.2 = true := by
        simpa [List.all_eq_true] using hall
      split at hf
      · cases hf
      · rename_i mid hcons
        obtain ⟨hfol, hprod, hev, removed, hspread, hmatch⟩ := consume_spec r taken
        rw [hcons] at hfol hprod hev hspread hmatch
        dsimp only at hfol hprod hev hspread
        obtain ⟨hfol', hprod', hev', hspread'⟩ := putAll_spec mid placed
        simp only [Prod.mk.injEq, and_true] at hf
        subst hf
        have hplaced := targets_ok htargets
        have hrange : ∀ e ∈ placed, e.1 < mid.holdings.length := by
          intro e he
          rw [holdings_length hfol]
          obtain ⟨m, -, hm⟩ := exists_left_of_forall₂ hplaced he
          exact hout _ (List.mem_of_getElem? hm.1)
        have hend := hfol'.trans hfol
        refine ⟨hheld, ⟨hend.step, hend.inputs, hend.outputs, hend.places⟩, ?_, removed, placed,
          hmatch (fun e he => ?_) rfl, hplaced, ?_, spread Holding.tokens mid.holdings,
          hspread.symm, hspread' hrange⟩
        · simp only [raise, hev', hev, hfol'.step, hfol.step]
        · obtain ⟨place, h, hp, hh, -⟩ := holds_iff.1 (hheld e he)
          simp [input?, hp, hh]
        · exact hprod'.trans (by rw [hprod])
    · cases hf

/-- The balance of a firing that succeeds, place by place. -/
theorem fire_true {taken made : List (Nat × Token)} (hf : r.fire taken made = (r', .ok true))
    (hout : ∀ p ∈ r.outputs, p < r.holdings.length) :
    (∀ e ∈ taken, r.holds e.1 e.2 = true) ∧ r'.Follows r ∧
    r'.events = r.events ++ [.fired (.ofStep r.step)] ∧
    ∃ removed placed : List (Nat × Token),
      List.Forall₂ (fun e u => r.inputs[e.1]? = some u.1 ∧ u.2.id = e.2.id) taken removed ∧
      List.Forall₂ (fun e p => r.outputs[e.1]? = some p.1 ∧ p.2 = e.2) made placed ∧
      r'.produced = r.produced ++ placed ∧
      spread Holding.tokens r'.holdings + (removed : Multiset _) =
        spread Holding.tokens r.holdings + (placed : Multiset _) := by
  obtain ⟨hheld, hfol, hevents, removed, placed, hremoved, hplaced, hproduced, rest, hold, hnew⟩ :=
    fire_taken hf hout
  refine ⟨hheld, hfol, hevents, removed, placed, hremoved, hplaced, hproduced, ?_⟩
  rw [hold, hnew, add_right_comm]

/-- Firing or not, a step keeps its place in the net. -/
theorem fire_follows {taken made : List (Nat × Token)} {result : Except Fault Bool}
    (hf : r.fire taken made = (r', result)) : r'.Follows r := by
  rw [fire] at hf
  split at hf
  · cases hf
    exact Follows.refl r
  · rename_i placed _
    split at hf
    · split at hf
      · rename_i mid f hmid
        cases hf
        exact consume_follows hmid
      · rename_i mid hmid
        have hput := (putAll_spec mid placed).1.trans (consume_follows hmid)
        cases hf
        exact ⟨hput.step, hput.inputs, hput.outputs, hput.places⟩
    · cases hf
      exact Follows.refl r

theorem targets_isOk {made : List (Nat × Token)}
    (h : ∀ e ∈ made, ∃ place, r.outputs[e.1]? = some place) : ∃ placed, r.targets made = .ok placed := by
  induction made with
  | nil => exact ⟨[], rfl⟩
  | cons e rest ih =>
    obtain ⟨place, hplace⟩ := h e List.mem_cons_self
    obtain ⟨placed, hplaced⟩ := ih fun x hx => h x (List.mem_cons_of_mem _ hx)
    exact ⟨(place, e.2) :: placed, by simp [targets, outputPlace, hplace, hplaced, Except.map]⟩

/-- A firing that takes one token fires if the token is there. -/
theorem fire_single {input : Nat} {t : Token} {made : List (Nat × Token)}
    (hh : r.holds input t = true) (hout : ∀ e ∈ made, ∃ place, r.outputs[e.1]? = some place) :
    ∃ r', r.fire [(input, t)] made = (r', .ok true) := by
  obtain ⟨placed, hplaced⟩ := targets_isOk hout
  obtain ⟨place, h, hp, hat, hholds⟩ := holds_iff.1 hh
  obtain ⟨h', hremove⟩ := Holding.remove_of_holds hholds
  have hin : r.input? input = some h := by simp [input?, hp, hat]
  simp only [fire, hplaced, List.all_cons, List.all_nil, hh, Bool.and_true, consume, hp, hin,
    hremove, if_true]
  exact ⟨_, rfl⟩

theorem fire_events {taken made : List (Nat × Token)} (hf : r.fire taken made = (r', .ok true)) :
    r'.events = r.events ++ [.fired (.ofStep r.step)] := by
  rw [fire] at hf
  split at hf
  · cases hf
  · rename_i placed _
    split at hf
    · split at hf
      · cases hf
      · rename_i mid hconsume
        obtain ⟨hfollows, -, hevents, -⟩ := putAll_spec mid placed
        have hspec := (consume_spec r taken).2.2.1
        rw [hconsume] at hspec
        cases hf
        rw [raise, hevents, hspec, hfollows.step, (consume_follows hconsume).step]
    · cases hf

theorem fire_false {taken made : List (Nat × Token)} (hf : r.fire taken made = (r', .ok false)) :
    r' = r ∧ ∃ e ∈ taken, r.holds e.1 e.2 = false := by
  rw [fire] at hf
  split at hf
  · cases hf
  · split at hf
    · split at hf <;> cases hf
    · rename_i hall
      simp only [Prod.mk.injEq, and_true] at hf
      simp only [List.all_eq_true, not_forall, Bool.not_eq_true] at hall
      obtain ⟨e, he, hnot⟩ := hall
      exact ⟨hf.symm, e, he, hnot⟩

/-- A firing that fails: an output is missing and nothing has happened, or a
token was named twice and those before it are gone. -/
theorem fire_error {taken made : List (Nat × Token)} {f : Fault}
    (hf : r.fire taken made = (r', .error f)) :
    (r' = r ∧ ∃ e ∈ made, r.outputs[e.1]? = none ∧
      f = .noSuchOutput r.step e.1 r.outputs.length) ∨
    ((∀ e ∈ taken, r.holds e.1 e.2 = true) ∧ r.consume taken = (r', .error f)) := by
  rw [fire] at hf
  split at hf
  · rename_i g htargets
    simp only [Prod.mk.injEq, Except.error.injEq] at hf
    obtain ⟨rfl, rfl⟩ := hf
    exact .inl ⟨rfl, targets_error htargets⟩
  · split at hf
    · rename_i hall
      split at hf
      · rename_i mid g hcons
        simp only [Prod.mk.injEq, Except.error.injEq] at hf
        obtain ⟨rfl, rfl⟩ := hf
        exact .inr ⟨by simpa [List.all_eq_true] using hall, hcons⟩
      · cases hf
    · cases hf

theorem produce_ok {output : Nat} {t : Token} (hp : r.produce output t = .ok r') :
    ∃ place, r.outputs[output]? = some place ∧ r' = r.put place t := by
  simp only [produce, outputPlace] at hp
  cases hplace : r.outputs[output]? with
  | none => simp [hplace, Except.map] at hp
  | some place =>
    simp only [hplace, Except.map, Except.ok.injEq] at hp
    exact ⟨place, rfl, hp.symm⟩

theorem produce_error {output : Nat} {t : Token} {f : Fault}
    (hp : r.produce output t = .error f) :
    r.outputs[output]? = none ∧ f = .noSuchOutput r.step output r.outputs.length := by
  simp only [produce, outputPlace] at hp
  cases hplace : r.outputs[output]? with
  | none =>
    simp only [hplace, Except.map, Except.error.injEq] at hp
    exact ⟨rfl, hp.symm⟩
  | some place => simp [hplace, Except.map] at hp

end Reaction
end RecipeNet
