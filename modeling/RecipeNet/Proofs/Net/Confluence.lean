import RecipeNet.Proofs.Net.Order
import RecipeNet.Proofs.Net.Seats

/-!
A join by itself, with the places of its net: siblings of several families come to the
places behind its inputs, and are announced to it afterwards. What lies behind the inputs
and who sits in the join follow from what has come and what has been announced so far.
-/

namespace RecipeNet

/-- A token that was split, and its siblings with the places that they come to. -/
structure Family where
  original : Token
  siblings : List (Nat × Token)

/-- Families for a join with some inputs: all originals and all siblings are told apart,
and each place gets as many siblings of a family as there are inputs that read it. -/
structure Families (inputs : List Nat) (families : List Family) : Prop where
  originals : (families.map (·.original.id)).Nodup
  siblings : ((families.flatMap (·.siblings)).map (·.2.id)).Nodup
  split : ∀ f ∈ families, ∀ x ∈ f.siblings, x.2.parent = some f.original
  shares : ∀ f ∈ families, ∀ place, (f.siblings.map (·.1)).count place = inputs.count place

namespace Families

variable {inputs : List Nat} {families : List Family} {f f' : Family} {x x' : Nat × Token}

theorem same_original (h : Families inputs families) (hf : f ∈ families) (hf' : f' ∈ families)
    (hid : f.original.id = f'.original.id) : f = f' :=
  List.inj_on_of_nodup_map h.originals hf hf' hid

/-- An identity tells which sibling of which family a token is. -/
theorem same_sibling (h : Families inputs families) (hf : f ∈ families) (hf' : f' ∈ families)
    (hx : x ∈ f.siblings) (hx' : x' ∈ f'.siblings) (hid : x.2.id = x'.2.id) : f = f' ∧ x = x' := by
  obtain rfl : x = x' := List.inj_on_of_nodup_map h.siblings (List.mem_flatMap.2 ⟨f, hf, hx⟩)
    (List.mem_flatMap.2 ⟨f', hf', hx'⟩) hid
  have horiginal : f.original = f'.original :=
    Option.some.inj ((h.split f hf x hx).symm.trans (h.split f' hf' x hx'))
  exact ⟨h.same_original hf hf' (congrArg Token.id horiginal), rfl⟩

theorem perm (h : Families inputs families) (hf : f ∈ families) :
    (f.siblings.map (·.1)).Perm inputs :=
  List.perm_iff_count.2 (h.shares f hf)

theorem length (h : Families inputs families) (hf : f ∈ families) :
    f.siblings.length = inputs.length := by
  have hlength := (h.perm hf).length_eq
  rwa [List.length_map] at hlength

theorem nodup (h : Families inputs families) (hf : f ∈ families) :
    (f.siblings.map (·.2.id)).Nodup := by
  obtain ⟨front, back, rfl⟩ := List.append_of_mem hf
  have hsiblings := h.siblings
  rw [List.flatMap_append, List.flatMap_cons] at hsiblings
  have hsub := (List.sublist_append_left f.siblings (back.flatMap (·.siblings))).trans
    (List.sublist_append_right (front.flatMap (·.siblings)) _)
  exact (hsub.map _).nodup hsiblings

theorem families_nodup (h : Families inputs families) : families.Nodup := h.originals.of_map _

end Families

/-- What befalls a join: a token comes into a place, it is announced on an input, or other
steps leave other tokens in a place. -/
inductive Incident where
  | comes (place : Nat) (t : Token)
  | told (input : Nat) (t : Token)
  | elsewhere (place : Nat) (tokens : List Token)

/-- A join with the places of its net. -/
structure Confluence where
  step : String
  inputs : List Nat
  output : Nat
  holdings : List Holding
  pending : List Generation

namespace Confluence

variable {c c' : Confluence} {families : List Family} {f : Family} {x : Nat × Token} {k : Nat}

def reaction (c : Confluence) : Reaction where
  step := c.step
  inputs := c.inputs
  outputs := [c.output]
  holdings := c.holdings

/-- What one move does, and the family that the join makes whole by it, if it does. A join
that is told of a token answers without a fault; either nothing has moved, or it has taken
just the siblings of one family and put the original of the family into its output. -/
inductive Turn (c : Confluence) : Incident → List Family → Confluence → Prop
  | comes (place : Nat) (t : Token) :
    Turn c (.comes place t) [] { c with holdings := c.holdings.modify place (·.add t) }
  | elsewhere {place : Nat} (tokens : List Token) (unread : place ∉ c.inputs) :
    Turn c (.elsewhere place tokens) []
      { c with holdings := c.holdings.modify place fun hold => { hold with tokens } }
  | waits {input : Nat} {t : Token} {pending : List Generation}
      (answer : Join.arrive c.pending c.reaction input t = (c.reaction, pending, .ok ())) :
    Turn c (.told input t) [] { c with pending }
  | fires {input : Nat} {t : Token} {pending : List Generation} {r : Reaction} {family : Family}
      {rest : Multiset (Nat × Token)}
      (answer : Join.arrive c.pending c.reaction input t = (r, pending, .ok ()))
      (reports : r.events = [.fired (.ofStep c.step)])
      (produced : r.produced = [(c.output, family.original)])
      (before : spread Holding.tokens c.holdings = rest + (family.siblings : Multiset _))
      (after : spread Holding.tokens r.holdings = (c.output, family.original) ::ₘ rest) :
    Turn c (.told input t) [family] { c with holdings := r.holdings, pending }

inductive Plays : Confluence → List Incident → List Family → Confluence → Prop
  | nil (c : Confluence) : Plays c [] [] c
  | cons {c mid last : Confluence} {m : Incident} {rest : List Incident} {made more : List Family}
      (turn : Turn c m made mid) (later : Plays mid rest more last) :
    Plays c (m :: rest) (made ++ more) last

/-- What lies behind the inputs. -/
def lying (c : Confluence) : Multiset (Nat × Token) :=
  (spread Holding.tokens c.holdings).filter (·.1 ∈ c.inputs)

theorem mem_lying : x ∈ c.lying ↔
    x.1 ∈ c.inputs ∧ ∃ hold, c.holdings[x.1]? = some hold ∧ x.2 ∈ hold.tokens := by
  rw [lying, Multiset.mem_filter, and_comm]
  exact and_congr_right fun _ => mem_spread

end Confluence

/-- A generation that collects a family: in its slots are siblings that have come to the
places behind the inputs of the slots. -/
structure Family.Collects (f : Family) (inputs : List Nat) (arrived : List (Nat × Token))
    (g : Generation) : Prop where
  parent : g.parent = f.original
  full : g.Full inputs.length
  distinct : g.Distinct
  seats : ∀ (k : Nat) (t : Token), g.slots[k]? = some (some t) →
    ∃ p, inputs[k]? = some p ∧ (p, t) ∈ f.siblings ∧ (p, t) ∈ arrived

namespace Generation

def sitting (g : Generation) (inputs : List Nat) (p : Nat) : List Token :=
  ((g.slots.zip inputs).filter (·.2 == p)).filterMap (·.1)

theorem sitting_sublist {g : Generation} {inputs : List Nat} (full : g.Full inputs.length) {p : Nat} :
    (g.sitting inputs p).Sublist (g.slots.filterMap id) := by
  have hslots : (g.slots.zip inputs).map (·.1) = g.slots := List.map_fst_zip full.le
  have hall : (g.slots.zip inputs).filterMap (·.1) = g.slots.filterMap id := by
    conv_rhs => rw [← hslots, List.filterMap_map]
    rfl
  exact hall ▸ List.filter_sublist.filterMap _

/-- If none of the inputs of a place has a free seat, each has its token. -/
theorem sitting_length (g : Generation) {inputs : List Nat} (full : g.Full inputs.length) {p : Nat}
    (taken : ∀ k : Nat, inputs[k]? = some p → g.slots[k]? ≠ some none) :
    (g.sitting inputs p).length = inputs.count p := by
  have hall : (g.sitting inputs p).length = ((g.slots.zip inputs).filter (·.2 == p)).length := by
    refine List.filterMap_length_eq_length.2 fun e he => ?_
    obtain ⟨hmem, hplace⟩ := List.mem_filter.1 he
    obtain ⟨k, hk⟩ := List.mem_iff_getElem?.1 hmem
    obtain ⟨hslot, hinput⟩ := List.getElem?_zip_eq_some.1 hk
    rw [beq_iff_eq.1 hplace] at hinput
    refine Option.isSome_iff_ne_none.2 fun hfree => taken k hinput ?_
    rw [hslot, hfree]
  have hinputs : (g.slots.zip inputs).map (·.2) = inputs := List.map_snd_zip full.ge
  rw [hall, ← List.countP_eq_length_filter, List.count]
  conv_rhs => rw [← hinputs, List.countP_map]
  rfl

end Generation

namespace Family.Collects

variable {inputs : List Nat} {families : List Family} {arrived : List (Nat × Token)} {f : Family}
  {g : Generation} {x : Nat × Token} {k : Nat}

theorem fresh (f : Family) (inputs : List Nat) (arrived : List (Nat × Token)) :
    f.Collects inputs arrived ⟨f.original, List.replicate inputs.length none⟩ where
  parent := rfl
  full := List.length_replicate
  distinct := Generation.distinct_lasting.fresh f.original inputs.length
  seats := by
    intro k t h
    rw [List.getElem?_replicate] at h
    split at h <;> cases h

theorem mono (h : f.Collects inputs arrived g) {more : List (Nat × Token)} (hsub : arrived ⊆ more) :
    f.Collects inputs more g :=
  ⟨h.parent, h.full, h.distinct, fun k t ht => by
    obtain ⟨p, hp, hmem, harrived⟩ := h.seats k t ht
    exact ⟨p, hp, hmem, hsub harrived⟩⟩

theorem member (h : f.Collects inputs arrived g) {t : Token} (ht : t ∈ g.slots.filterMap id) :
    ∃ p, (p, t) ∈ f.siblings := by
  obtain ⟨slot, hslot, rfl⟩ := List.mem_filterMap.1 ht
  obtain ⟨k, hk⟩ := List.mem_iff_getElem?.1 hslot
  obtain ⟨p, -, hmem, -⟩ := h.seats k t hk
  exact ⟨p, hmem⟩

/-- A sibling takes a free seat of an input that reads its place. -/
theorem seated (h : f.Collects inputs arrived g) (hx : x ∈ f.siblings) (harrived : x ∈ arrived)
    (hsplit : x.2.parent = some f.original) (unseen : g.buffers x.2 = false)
    (free : g.slots[k]? = some none) (hk : inputs[k]? = some x.1) :
    f.Collects inputs arrived { g with slots := g.slots.set k (some x.2) } where
  parent := h.parent
  full := List.length_set.trans h.full
  distinct := @Generation.distinct_lasting.seated 0 _ _ _ _ h.distinct hsplit
    (congrArg Token.id h.parent) unseen free
  seats := by
    intro j t ht
    by_cases hj : k = j
    · subst hj
      obtain ⟨hlt, -⟩ := List.getElem?_eq_some_iff.1 free
      rw [List.getElem?_set_self hlt] at ht
      obtain rfl := Option.some.inj (Option.some.inj ht)
      exact ⟨x.1, hk, hx, harrived⟩
    · rw [List.getElem?_set_ne hj] at ht
      exact h.seats j t ht

theorem sitting_siblings (h : f.Collects inputs arrived g) {p : Nat} {t : Token}
    (ht : t ∈ g.sitting inputs p) : (p, t) ∈ f.siblings := by
  obtain ⟨e, he, hseat⟩ := List.mem_filterMap.1 ht
  obtain ⟨hmem, hplace⟩ := List.mem_filter.1 he
  obtain ⟨k, hk⟩ := List.mem_iff_getElem?.1 hmem
  obtain ⟨hslot, hinput⟩ := List.getElem?_zip_eq_some.1 hk
  rw [hseat] at hslot
  obtain ⟨q, hq, hsibling, -⟩ := h.seats k t hslot
  rw [beq_iff_eq.1 hplace] at hinput
  obtain rfl := Option.some.inj (hinput.symm.trans hq)
  exact hsibling

/-- As long as a sibling has no seat, there is a free one at an input that reads its place:
there are as many of these inputs as siblings that come to the place. -/
theorem room (h : f.Collects inputs arrived g) (hfamilies : Families inputs families)
    (hf : f ∈ families) (hx : x ∈ f.siblings) (unseen : g.buffers x.2 = false) :
    ∃ k : Nat, inputs[k]? = some x.1 ∧ g.slots[k]? = some none := by
  by_contra hnone
  push Not at hnone
  have hmany : (g.sitting inputs x.1).length = inputs.count x.1 := g.sitting_length h.full hnone
  have hsub := Generation.sitting_sublist h.full (p := x.1)
  have hapart : ((x.2 :: g.sitting inputs x.1).map (·.id)).Nodup := by
    rw [List.map_cons, List.nodup_cons]
    refine ⟨fun hmem => ?_, (hsub.map _).nodup h.distinct⟩
    obtain ⟨u, hu, hid⟩ := List.mem_map.1 hmem
    exact Generation.buffers_false unseen u (hsub.mem hu) hid
  have hnodup : (x.2 :: g.sitting inputs x.1).Nodup := hapart.of_map _
  have hthere : (x.2 :: g.sitting inputs x.1) ⊆ (f.siblings.filter (·.1 == x.1)).map (·.2) := by
    intro t ht
    refine List.mem_map.2 ⟨(x.1, t), List.mem_filter.2 ⟨?_, beq_self_eq_true _⟩, rfl⟩
    rcases List.mem_cons.1 ht with rfl | hsits
    · exact hx
    · exact h.sitting_siblings hsits
  have hle := (hnodup.subperm hthere).length_le
  have hshares := hfamilies.shares f hf x.1
  rw [List.length_map, ← List.countP_eq_length_filter, List.length_cons, hmany, ← hshares,
    List.count, List.countP_map] at hle
  exact absurd hle (Nat.not_succ_le_self _)

/-- A generation in which all siblings of a family sit is complete. -/
theorem complete (h : f.Collects inputs arrived g) (hfamilies : Families inputs families)
    (hf : f ∈ families) (all : ∀ x ∈ f.siblings, g.buffers x.2 = true) : g.isComplete = true := by
  apply Generation.complete_of_ids (hfamilies.nodup hf)
  · rw [List.length_map, hfamilies.length hf]
    exact h.full.symm
  · intro i hi
    obtain ⟨x, hx, rfl⟩ := List.mem_map.1 hi
    obtain ⟨slot, hslot, hany⟩ := List.any_eq_true.1 (all x hx)
    obtain ⟨t, rfl, hsame⟩ := (Option.any_eq_true _ _).1 hany
    exact ⟨t, List.mem_filterMap.2 ⟨_, hslot, rfl⟩, Token.same_iff.1 hsame⟩

end Family.Collects

namespace Generation

theorem buffers_iff {g : Generation} {t : Token} :
    g.buffers t = true ↔ ∃ (k : Nat) (u : Token), g.slots[k]? = some (some u) ∧ u.id = t.id := by
  rw [buffers, List.any_eq_true]
  constructor
  · rintro ⟨slot, hslot, hany⟩
    obtain ⟨u, rfl, hsame⟩ := (Option.any_eq_true _ _).1 hany
    obtain ⟨k, hk⟩ := List.mem_iff_getElem?.1 hslot
    exact ⟨k, u, hk, Token.same_iff.1 hsame⟩
  · rintro ⟨k, u, hk, hid⟩
    exact ⟨some u, List.mem_of_getElem? hk, Token.same_iff.2 hid⟩

theorem buffers_seat {g : Generation} {slot : Nat} (free : g.slots[slot]? = some none) {t u : Token} :
    ({ g with slots := g.slots.set slot (some t) } : Generation).buffers u = true ↔
      t.id = u.id ∨ g.buffers u = true := by
  have hlt := (List.getElem?_eq_some_iff.1 free).1
  simp only [buffers_iff]
  constructor
  · rintro ⟨k, v, hk, hid⟩
    by_cases hslot : slot = k
    · subst hslot
      rw [List.getElem?_set_self hlt] at hk
      obtain rfl := Option.some.inj (Option.some.inj hk)
      exact .inl hid
    · rw [List.getElem?_set_ne hslot] at hk
      exact .inr ⟨k, v, hk, hid⟩
  · rintro (hid | ⟨k, v, hk, hid⟩)
    · exact ⟨slot, t, List.getElem?_set_self hlt, hid⟩
    · have hslot : slot ≠ k := by
        rintro rfl
        rw [free] at hk
        cases hk
      exact ⟨k, v, (List.getElem?_set_ne hslot).trans hk, hid⟩

theorem freeSlot_none {g : Generation} {r : Reaction} {t : Token} (h : g.freeSlot? r t = none)
    {k : Nat} (hk : g.slots[k]? = some none) : r.holds k t = false := by
  have hall := List.find?_eq_none.1 (Option.map_eq_none_iff.1 h) (none, k)
    (List.mem_zipIdx_iff_getElem?.2 hk)
  simpa using hall

end Generation

namespace Confluence

variable {c : Confluence} {families emitted : List Family} {arrived heard : List (Nat × Token)}
  {f : Family} {x : Nat × Token} {k : Nat}

/-- What a join has come to when some siblings have arrived, some of them have been announced
and some families are whole. Behind the inputs lies what has arrived of the other families;
each of these that has been announced sits in the one generation of its family. -/
structure Sound (families : List Family) (arrived heard : List (Nat × Token))
    (emitted : List Family) (c : Confluence) : Prop where
  range : ∀ p ∈ c.inputs, p < c.holdings.length
  output : c.output < c.holdings.length
  unread : c.output ∉ c.inputs
  known : ∀ x ∈ arrived, ∃ f ∈ families, x ∈ f.siblings
  whole : ∀ f ∈ emitted, f ∈ families ∧ f.siblings ⊆ arrived
  once : emitted.Nodup
  lies : ∀ x, x ∈ c.lying ↔ x ∈ arrived ∧ ∀ f ∈ emitted, x ∉ f.siblings
  distinct : (c.lying.map (·.2.id)).Nodup
  collects : ∀ g ∈ c.pending, g.isComplete = false ∧
    ∃ f ∈ families, f ∉ emitted ∧ f.Collects c.inputs arrived g
  parents : (c.pending.map (·.parent.id)).Nodup
  sits : ∀ f ∈ families, f ∉ emitted → ∀ x ∈ f.siblings, x ∈ heard →
    ∃ g ∈ c.pending, g.parent = f.original ∧ g.buffers x.2 = true

/-- What other steps do elsewhere is not seen. -/
theorem lying_unread {place : Nat} (unread : place ∉ c.inputs) (change : Holding → Holding) :
    ({ c with holdings := c.holdings.modify place change } : Confluence).lying = c.lying := by
  cases hat : c.holdings[place]? with
  | none =>
    have hsame : c.holdings.modify place change = c.holdings := by
      refine List.ext_getElem? fun i => ?_
      rw [List.getElem?_modify]
      by_cases hi : place = i
      · subst hi
        simp [hat]
      · simp [hi]
    rw [hsame]
  | some hold =>
    have hnone (ts : List Token) : Multiset.filter (·.1 ∈ c.inputs)
        ((ts.map (place, ·) : List (Nat × Token)) : Multiset (Nat × Token)) = 0 := by
      refine Multiset.filter_eq_nil.2 fun x hx => ?_
      obtain ⟨t, -, rfl⟩ := List.mem_map.1 (Multiset.mem_coe.1 hx)
      exact unread
    have hone := congrArg (Multiset.filter (·.1 ∈ c.inputs))
      (spread_modify Holding.tokens change hat)
    rwa [Multiset.filter_add, Multiset.filter_add, hnone, hnone, add_zero, add_zero] at hone

theorem Sound.elsewhere (h : Sound families arrived heard emitted c) {place : Nat}
    (unread : place ∉ c.inputs) (tokens : List Token) :
    Sound families arrived heard emitted
      { c with holdings := c.holdings.modify place fun hold => { hold with tokens } } := by
  have hlying := lying_unread unread fun hold : Holding => { hold with tokens }
  have hlength : (c.holdings.modify place fun hold => { hold with tokens }).length =
      c.holdings.length := List.length_modify ..
  exact { h with
    range := fun p hp => (h.range p hp).trans_eq hlength.symm
    output := h.output.trans_eq hlength.symm
    lies := fun x => by rw [hlying]; exact h.lies x
    distinct := by rw [hlying]; exact h.distinct }

/-- A sibling that has not come yet comes into its place. -/
theorem Sound.comes (h : Sound families arrived heard emitted c)
    (hfamilies : Families c.inputs families) (hf : f ∈ families) (hx : x ∈ f.siblings)
    (new : x ∉ arrived) : Sound families (x :: arrived) heard emitted
      { c with holdings := c.holdings.modify x.1 (·.add x.2) } := by
  have hplace : x.1 ∈ c.inputs := (hfamilies.perm hf).mem_iff.1 (List.mem_map_of_mem hx)
  have hlying : ({ c with holdings := c.holdings.modify x.1 (·.add x.2) } : Confluence).lying =
      x ::ₘ c.lying := by
    unfold lying
    dsimp only
    rw [spread_add x.2 (h.range x.1 hplace)]
    exact Multiset.filter_cons_of_pos _ hplace
  have hlength : (c.holdings.modify x.1 (·.add x.2)).length = c.holdings.length :=
    List.length_modify ..
  refine { h with
    range := fun p hp => (h.range p hp).trans_eq hlength.symm
    output := h.output.trans_eq hlength.symm
    known := List.forall_mem_cons.2 ⟨⟨f, hf, hx⟩, h.known⟩
    whole := fun f hf => ⟨(h.whole f hf).1, fun y hy => List.mem_cons_of_mem _ ((h.whole f hf).2 hy)⟩
    lies := fun y => ?_
    distinct := ?_
    collects := fun g hg => ?_ }
  · rw [hlying, Multiset.mem_cons, List.mem_cons, h.lies y, or_and_right]
    refine or_congr_left (iff_self_and.2 ?_)
    rintro rfl f' hf' hy
    exact new ((h.whole f' hf').2 hy)
  · rw [hlying, Multiset.map_cons, Multiset.nodup_cons]
    refine ⟨fun hmem => ?_, h.distinct⟩
    obtain ⟨y, hy, hid⟩ := Multiset.mem_map.1 hmem
    obtain ⟨harrived, -⟩ := (h.lies y).1 hy
    obtain ⟨f', hf', hsibling⟩ := h.known y harrived
    obtain ⟨-, rfl⟩ := hfamilies.same_sibling hf' hf hsibling hx hid
    exact new harrived
  · obtain ⟨hopen, f', hf', hnot, hcollects⟩ := h.collects g hg
    exact ⟨hopen, f', hf', hnot, hcollects.mono (List.subset_cons_self x arrived)⟩

/-- A sibling that has come is there for an input if the input reads its place and its family
is not whole yet. -/
theorem Sound.holds_iff (h : Sound families arrived heard emitted c)
    (hfamilies : Families c.inputs families) (hf : f ∈ families) (hx : x ∈ f.siblings) :
    c.reaction.holds k x.2 = true ↔ c.inputs[k]? = some x.1 ∧ x ∈ arrived ∧ f ∉ emitted := by
  rw [Reaction.holds_iff]
  constructor
  · rintro ⟨place, hold, hplace, hat, hholds⟩
    change c.inputs[k]? = some place at hplace
    obtain ⟨u, hu, hid⟩ := Holding.holds_iff.1 hholds
    have hlies : (place, u) ∈ c.lying := mem_lying.2 ⟨List.mem_of_getElem? hplace, hold, hat, hu⟩
    obtain ⟨harrived, hopen⟩ := (h.lies _).1 hlies
    obtain ⟨f', hf', hsibling⟩ := h.known _ harrived
    obtain ⟨rfl, rfl⟩ := hfamilies.same_sibling hf' hf hsibling hx hid
    exact ⟨hplace, harrived, fun hmade => hopen f' hmade hx⟩
  · rintro ⟨hplace, harrived, hopen⟩
    have hlies : x ∈ c.lying := by
      refine (h.lies x).2 ⟨harrived, fun f' hf' hx' => hopen ?_⟩
      obtain ⟨rfl, -⟩ := hfamilies.same_sibling hf (h.whole f' hf').1 hx hx' rfl
      exact hf'
    obtain ⟨-, hold, hat, hmem⟩ := mem_lying.1 hlies
    exact ⟨x.1, hold, hplace, hat, Holding.holds_iff.2 ⟨x.2, hmem, rfl⟩⟩

/-- What is taken for a complete generation are the siblings of its family, since nothing else
behind the inputs has their identities. -/
theorem Sound.taken (h : Sound families arrived heard emitted c)
    (hfamilies : Families c.inputs families) (hf : f ∈ families) {g : Generation}
    (hcollects : f.Collects c.inputs arrived g) (complete : g.isComplete = true)
    {removed : List (Nat × Token)}
    (taken : List.Forall₂ (fun e u => c.inputs[e.1]? = some u.1 ∧ u.2.id = e.2.id) g.siblings removed)
    (there : ∀ u ∈ removed, u ∈ spread Holding.tokens c.holdings) : removed.Perm f.siblings := by
  have hsub : removed ⊆ f.siblings := by
    intro u hu
    obtain ⟨e, he, hplace, hid⟩ := exists_left_of_forall₂ taken hu
    obtain ⟨p, hp, hsibling, -⟩ := hcollects.seats e.1 e.2 (Generation.mem_siblings.1 he)
    have hlies : u ∈ c.lying :=
      Multiset.mem_filter.2 ⟨there u hu, List.mem_of_getElem? hplace⟩
    obtain ⟨f', hf', hu'⟩ := h.known u ((h.lies u).1 hlies).1
    obtain ⟨-, rfl⟩ := hfamilies.same_sibling hf' hf hu' hsibling hid
    exact hsibling
  have hids : removed.map (·.2.id) = g.siblings.map (·.2.id) := by
    have hsame : List.Forall₂ (· = ·) (removed.map (·.2.id)) (g.siblings.map (·.2.id)) :=
      List.forall₂_map_left_iff.2 (List.forall₂_map_right_iff.2 (taken.flip.imp fun _ _ h => h.2))
    rwa [List.forall₂_eq_eq_eq] at hsame
  have hnodup : removed.Nodup := by
    have hdistinct := hcollects.distinct
    unfold Generation.Distinct at hdistinct
    rw [← Generation.siblings_ids, ← hids] at hdistinct
    exact hdistinct.of_map _
  have hlength : f.siblings.length ≤ removed.length := by
    have hinputs := congrArg List.length (Generation.siblings_complete complete)
    rw [List.length_map, List.length_range] at hinputs
    rw [hfamilies.length hf, ← taken.length_eq, hinputs]
    exact hcollects.full.ge
  exact (hnodup.subperm hsub).perm_of_length_le hlength

/-- A family whose siblings all sit in the join can be made whole. -/
theorem Sound.fires (h : Sound families arrived heard emitted c)
    (hfamilies : Families c.inputs families) (hf : f ∈ families) (hopen : f ∉ emitted)
    {g : Generation} (hcollects : f.Collects c.inputs arrived g) (complete : g.isComplete = true) :
    ∃ r rest, c.reaction.fire g.siblings [(0, g.parent)] = (r, .ok true) ∧
      r.Follows c.reaction ∧ r.events = [.fired (.ofStep c.step)] ∧
      r.produced = [(c.output, f.original)] ∧
      spread Holding.tokens c.holdings = rest + (f.siblings : Multiset _) ∧
      spread Holding.tokens r.holdings = (c.output, f.original) ::ₘ rest := by
  have hheld : ∀ e ∈ g.siblings, c.reaction.holds e.1 e.2 = true := by
    intro e he
    obtain ⟨p, hp, hsibling, harrived⟩ := hcollects.seats e.1 e.2 (Generation.mem_siblings.1 he)
    exact (h.holds_iff hfamilies hf hsibling).2 ⟨hp, harrived, hopen⟩
  have houtputs : ∀ p ∈ c.reaction.outputs, p < c.reaction.holdings.length :=
    List.forall_mem_singleton.2 h.output
  generalize hfire : c.reaction.fire g.siblings [(0, g.parent)] = fired
  obtain ⟨r, fault | _ | _⟩ := fired
  · rcases Reaction.fire_error hfire with ⟨-, e, he, hnone, -⟩ | ⟨-, hconsume⟩
    · obtain rfl := List.mem_singleton.1 he
      cases hnone
    · have hok := hcollects.distinct.consume hheld
      rw [hconsume] at hok
      cases hok
  · obtain ⟨-, e, he, hgone⟩ := Reaction.fire_false hfire
    rw [hheld e he] at hgone
    cases hgone
  obtain ⟨-, hfollows, hevents, removed, placed, hremoved, hplaced, hproduced, rest, hbefore, hafter⟩ :=
    Reaction.fire_taken hfire houtputs
  change spread Holding.tokens c.holdings = _ at hbefore
  have hperm : removed.Perm f.siblings := h.taken hfamilies hf hcollects complete hremoved fun u hu => by
    rw [hbefore]
    exact Multiset.mem_add.2 (.inr hu)
  obtain ⟨p, hp, rfl⟩ : ∃ p, placed = [p] ∧ p = (c.output, f.original) := by
    cases hplaced with
    | cons hfirst hrest =>
      cases hrest
      refine ⟨_, rfl, Prod.ext (Option.some.inj hfirst.1).symm ?_⟩
      exact hfirst.2.trans hcollects.parent
  subst hp
  refine ⟨r, rest, rfl, hfollows, hevents, hproduced, ?_, ?_⟩
  · rw [hbefore, Multiset.coe_eq_coe.2 hperm]
  · rw [hafter, ← Multiset.singleton_add, add_comm]
    rfl

/-- The generation that takes a sibling in is the one of its family, and the others stay. -/
theorem Sound.finds (h : Sound families arrived heard emitted c)
    (hfamilies : Families c.inputs families) (hf : f ∈ families) {t : Token}
    {placed : List Generation} {j slot : Nat} {g : Generation}
    (finds : Join.Finds c.pending c.reaction t f.original placed j g slot) :
    f.Collects c.inputs arrived g ∧ placed.eraseIdx j ⊆ c.pending ∧
      (∀ g' ∈ c.pending, g' = g ∨ g' ∈ placed.eraseIdx j) ∧
      ((placed.eraseIdx j).map (·.parent.id)).Nodup ∧
      ∀ g' ∈ placed.eraseIdx j, g'.parent.id ≠ f.original.id := by
  have hlocated := finds.located
  rcases Join.locate_cases c.pending f.original c.inputs.length with
    ⟨i, g', hlocate, hg', hfind⟩ | ⟨hlocate, hnew⟩
  · obtain ⟨rfl, rfl⟩ := Prod.ext_iff.1 (hlocate.symm.trans hlocated)
    obtain rfl := Option.some.inj (hg'.symm.trans finds.isPlaced)
    obtain ⟨hlt, hget⟩ := List.getElem?_eq_some_iff.1 hg'
    have hsame : g'.parent.id = f.original.id := by
      obtain ⟨_, hthat, _⟩ := List.findIdx?_eq_some_iff_getElem.1 hfind
      rw [hget] at hthat
      exact Token.same_iff.1 hthat
    have hperm : (g' :: c.pending.eraseIdx i).Perm c.pending := by
      rw [← hget]
      exact List.getElem_cons_eraseIdx_perm hlt
    obtain ⟨-, f', hf', -, hcollects⟩ := h.collects g' (List.mem_of_getElem? hg')
    obtain rfl : f' = f :=
      hfamilies.same_original hf' hf ((congrArg Token.id hcollects.parent).symm.trans hsame)
    have hparents := ((hperm.map (·.parent.id)).nodup_iff).2 h.parents
    rw [List.map_cons, List.nodup_cons] at hparents
    obtain ⟨hother, hrest⟩ := hparents
    refine ⟨hcollects, List.eraseIdx_subset, fun g₀ hg₀ => ?_, hrest, fun g₀ hg₀ heq => ?_⟩
    · exact List.mem_cons.1 (hperm.mem_iff.2 hg₀)
    · exact hother (List.mem_map.2 ⟨g₀, hg₀, heq.trans hsame.symm⟩)
  · obtain ⟨rfl, rfl⟩ := Prod.ext_iff.1 (hlocate.symm.trans hlocated)
    have hlast := finds.isPlaced
    rw [List.getElem?_append_right le_rfl, Nat.sub_self] at hlast
    obtain rfl := Option.some.inj hlast
    have herase : (c.pending ++ [(⟨f.original, List.replicate c.inputs.length none⟩ :
        Generation)]).eraseIdx c.pending.length = c.pending := by
      rw [List.eraseIdx_append_of_length_le le_rfl, Nat.sub_self]
      exact List.append_nil _
    rw [herase]
    exact ⟨.fresh f c.inputs arrived, List.Subset.refl _, fun _ => .inr, h.parents, hnew⟩

/-- A sibling is noted whose family lacks others still. -/
theorem Sound.noted (h : Sound families arrived heard emitted c)
    (hfamilies : Families c.inputs families) (hf : f ∈ families) (hopen : f ∉ emitted)
    (hx : x ∈ f.siblings) (harrived : x ∈ arrived) {placed : List Generation} {j slot : Nat}
    {g : Generation} (finds : Join.Finds c.pending c.reaction x.2 f.original placed j g slot)
    (lacks : ({ g with slots := g.slots.set slot (some x.2) } : Generation).isComplete = false) :
    Sound families arrived (x :: heard) emitted
      { c with pending := placed.set j { g with slots := g.slots.set slot (some x.2) } } := by
  obtain ⟨hcollects, hothers, hpending, hparents, hapart⟩ := h.finds hfamilies hf finds
  have hslot := ((h.holds_iff hfamilies hf hx).1 finds.holds).1
  have hseated := hcollects.seated hx harrived finds.isSplit finds.unseen finds.free hslot
  have hperm := List.set_perm_cons_eraseIdx (List.getElem?_eq_some_iff.1 finds.isPlaced).1
    { g with slots := g.slots.set slot (some x.2) }
  refine { h with collects := fun g₀ hg₀ => ?_, parents := ?_, sits := ?_ }
  · rcases List.mem_cons.1 (hperm.mem_iff.1 hg₀) with rfl | hother
    · exact ⟨lacks, f, hf, hopen, hseated⟩
    · exact h.collects g₀ (hothers hother)
  · refine (hperm.map (·.parent.id)).nodup_iff.2 (List.nodup_cons.2 ⟨fun hmem => ?_, hparents⟩)
    obtain ⟨g₀, hg₀, hid⟩ := List.mem_map.1 hmem
    exact hapart g₀ hg₀ (hid.trans (congrArg Token.id hcollects.parent))
  · intro f' hf' hopen' y hy hheard
    have hthere : { g with slots := g.slots.set slot (some x.2) } ∈
        placed.set j { g with slots := g.slots.set slot (some x.2) } :=
      hperm.mem_iff.2 List.mem_cons_self
    rcases List.mem_cons.1 hheard with rfl | hheard
    · obtain ⟨rfl, -⟩ := hfamilies.same_sibling hf hf' hx hy rfl
      exact ⟨_, hthere, hcollects.parent, (Generation.buffers_seat finds.free).2 (.inl rfl)⟩
    · obtain ⟨g₀, hg₀, hparent, hsits⟩ := h.sits f' hf' hopen' y hy hheard
      rcases hpending g₀ hg₀ with rfl | hother
      · exact ⟨_, hthere, hparent, (Generation.buffers_seat finds.free).2 (.inr hsits)⟩
      · exact ⟨g₀, hperm.mem_iff.2 (List.mem_cons_of_mem _ hother), hparent, hsits⟩

/-- When a family leaves, what lies behind the inputs is the rest. -/
theorem Sound.leaves (h : Sound families arrived heard emitted c)
    (hfamilies : Families c.inputs families) (hf : f ∈ families) {holdings : List Holding}
    (pending : List Generation) {rest : Multiset (Nat × Token)} {original : Token}
    (before : spread Holding.tokens c.holdings = rest + (f.siblings : Multiset _))
    (after : spread Holding.tokens holdings = (c.output, original) ::ₘ rest) :
    c.lying = ({ c with holdings, pending } : Confluence).lying + (f.siblings : Multiset _) := by
  have hall : ∀ y ∈ f.siblings, y.1 ∈ c.inputs := fun y hy =>
    (hfamilies.perm hf).mem_iff.1 (List.mem_map_of_mem hy)
  have hrest : ({ c with holdings, pending } : Confluence).lying = rest.filter (·.1 ∈ c.inputs) := by
    unfold lying
    dsimp only
    rw [after]
    exact Multiset.filter_cons_of_neg _ h.unread
  rw [hrest, lying, before, Multiset.filter_add]
  exact congrArg _ (Multiset.filter_eq_self.2 hall)

/-- When a family leaves, the siblings of the families that are not whole stay, each of them
once. -/
theorem Sound.stays (h : Sound families arrived heard emitted c) {left : Confluence}
    (split : c.lying = left.lying + (f.siblings : Multiset _)) :
    (∀ y, y ∈ left.lying ↔ y ∈ arrived ∧ ∀ f' ∈ emitted ++ [f], y ∉ f'.siblings) ∧
      (left.lying.map (·.2.id)).Nodup := by
  have hdistinct := h.distinct
  rw [split, Multiset.map_add, Multiset.nodup_add] at hdistinct
  obtain ⟨hrest, -, hdisjoint⟩ := hdistinct
  refine ⟨fun y => ?_, hrest⟩
  have hmem := h.lies y
  rw [split, Multiset.mem_add] at hmem
  constructor
  · intro hy
    obtain ⟨hcame, hopens⟩ := hmem.1 (.inl hy)
    refine ⟨hcame, List.forall_mem_append.2 ⟨hopens, List.forall_mem_singleton.2 fun hgone => ?_⟩⟩
    exact Multiset.disjoint_left.1 hdisjoint (Multiset.mem_map_of_mem _ hy)
      (Multiset.mem_map_of_mem _ hgone)
  · rintro ⟨hcame, hopens⟩
    obtain ⟨hbefore, hthis⟩ := List.forall_mem_append.1 hopens
    exact (hmem.2 ⟨hcame, hbefore⟩).resolve_right (hthis f (List.mem_singleton.2 rfl))

/-- A sibling completes its family, which leaves for the output. -/
theorem Sound.completed (h : Sound families arrived heard emitted c)
    (hfamilies : Families c.inputs families) (hf : f ∈ families) (hopen : f ∉ emitted)
    (hx : x ∈ f.siblings) (harrived : x ∈ arrived) {placed : List Generation} {j slot : Nat}
    {g : Generation} (finds : Join.Finds c.pending c.reaction x.2 f.original placed j g slot)
    (complete : ({ g with slots := g.slots.set slot (some x.2) } : Generation).isComplete = true)
    (answer : Join.arrive c.pending c.reaction k x.2 = Join.complete (placed.eraseIdx j)
      { g with slots := g.slots.set slot (some x.2) } c.reaction) :
    ∃ c', c.Turn (.told k x.2) [f] c' ∧ Sound families arrived (x :: heard) (emitted ++ [f]) c' := by
  obtain ⟨hcollects, hothers, hpending, hparents, hapart⟩ := h.finds hfamilies hf finds
  have hslot := ((h.holds_iff hfamilies hf hx).1 finds.holds).1
  have hseated := hcollects.seated hx harrived finds.isSplit finds.unseen finds.free hslot
  -- The whole family lies behind the inputs, so nothing keeps the join from firing.
  obtain ⟨r, rest, hfire, hfollows, hevents, hproduced, hbefore, hafter⟩ :=
    h.fires hfamilies hf hopen hseated complete
  have hcomplete : Join.arrive c.pending c.reaction k x.2 = (r, placed.eraseIdx j, .ok ()) := by
    rw [answer, Join.complete, hfire]
  refine ⟨_, .fires hcomplete hevents hproduced hbefore hafter, ?_⟩
  have hlength : r.holdings.length = c.holdings.length := by
    have hplaces := congrArg List.length hfollows.places
    rwa [List.length_map, List.length_map] at hplaces
  have hsplit := h.leaves hfamilies hf (placed.eraseIdx j) hbefore hafter
  obtain ⟨hlies, hdistinct⟩ := h.stays hsplit
  exact {
    range := fun p hp => (h.range p hp).trans_eq hlength.symm
    output := h.output.trans_eq hlength.symm
    unread := h.unread
    known := h.known
    whole := by
      refine List.forall_mem_append.2 ⟨h.whole, List.forall_mem_singleton.2 ⟨hf, fun y hy => ?_⟩⟩
      have hmem : y ∈ c.lying := by
        rw [hsplit]
        exact Multiset.mem_add.2 (.inr hy)
      exact ((h.lies y).1 hmem).1
    once := by
      rw [List.nodup_append]
      refine ⟨h.once, List.nodup_singleton f, fun f₁ hf₁ f₂ hf₂ heq => hopen ?_⟩
      rwa [← List.mem_singleton.1 hf₂, ← heq]
    lies := hlies
    distinct := hdistinct
    collects := by
      intro g₀ hg₀
      obtain ⟨hlacks, f', hf', hopen', hcollects'⟩ := h.collects g₀ (hothers hg₀)
      refine ⟨hlacks, f', hf', fun hmem => ?_, hcollects'⟩
      rcases List.mem_append.1 hmem with hmade | hthis
      · exact hopen' hmade
      · obtain rfl := List.mem_singleton.1 hthis
        exact hapart g₀ hg₀ (congrArg Token.id hcollects'.parent)
    parents := hparents
    sits := by
      intro f' hf' hopen' y hy hheard
      have hother : f' ≠ f := fun heq =>
        hopen' (List.mem_append.2 (.inr (List.mem_singleton.2 heq)))
      rcases List.mem_cons.1 hheard with rfl | hheard
      · exact absurd (hfamilies.same_sibling hf' hf hy hx rfl).1 hother
      · obtain ⟨g₀, hg₀, hparent, hsits⟩ := h.sits f' hf'
          (fun hmade => hopen' (List.mem_append.2 (.inl hmade))) y hy hheard
        rcases hpending g₀ hg₀ with rfl | hmem
        · refine absurd (hfamilies.same_original hf' hf ?_) hother
          exact congrArg Token.id (hparent.symm.trans hcollects.parent)
        · exact ⟨g₀, hmem, hparent, hsits⟩ }

/-- A join refuses no sibling that has come to the place behind an input. -/
theorem Sound.unrefused (h : Sound families arrived heard emitted c)
    (hfamilies : Families c.inputs families) (hf : f ∈ families) (hx : x ∈ f.siblings)
    (holds : c.reaction.holds k x.2 = true) {reason : Surprise} :
    ¬ Join.Refuses c.pending c.reaction k x.2 reason := by
  obtain ⟨hplace, harrived, hopen⟩ := (h.holds_iff hfamilies hf hx).1 holds
  have hlt := (List.getElem?_eq_some_iff.1 hplace).1
  have hown : ∀ g ∈ c.pending, ∃ f' ∈ families, f'.Collects c.inputs arrived g :=
    fun g hg => (h.collects g hg).elim fun _ ⟨f', hf', _, hcollects⟩ => ⟨f', hf', hcollects⟩
  intro refuses
  cases refuses with
  | whole hwhole => cases hwhole.symm.trans (hfamilies.split f hf x hx)
  | narrow parent j g _ _ hg hout =>
    obtain ⟨f', hf', hcollects⟩ := hown g (List.mem_of_getElem? hg)
    rw [List.getElem?_eq_none_iff, hcollects.full] at hout
    exact absurd hlt (Nat.not_lt.2 hout)
  | taken parent j g other hparent hfind hg hother hunseen hfull =>
    obtain ⟨f', hf', hcollects⟩ := hown g (List.mem_of_getElem? hg)
    obtain rfl := Option.some.inj (hparent.symm.trans (hfamilies.split f hf x hx))
    obtain ⟨_, hthat, _⟩ := List.findIdx?_eq_some_iff_getElem.1 hfind
    rw [(List.getElem?_eq_some_iff.1 hg).2] at hthat
    obtain rfl : f' = f := hfamilies.same_original hf' hf
      ((congrArg Token.id hcollects.parent).symm.trans (Token.same_iff.1 hthat))
    -- There is a free slot, so the join looks for one and finds it.
    obtain ⟨i, hi, hfree⟩ := hcollects.room hfamilies hf hx hunseen
    have hnot := Generation.freeSlot_none hfull hfree
    rw [(h.holds_iff hfamilies hf hx).2 ⟨hi, harrived, hopen⟩] at hnot
    cases hnot

/-- A sibling that has come is announced on an input that reads its place. -/
theorem Sound.told (h : Sound families arrived heard emitted c)
    (hfamilies : Families c.inputs families) (hf : f ∈ families) (hx : x ∈ f.siblings)
    (harrived : x ∈ arrived) (hk : c.inputs[k]? = some x.1) :
    ∃ made c', c.Turn (.told k x.2) made c' ∧
      Sound families arrived (x :: heard) (emitted ++ made) c' := by
  generalize hanswer : Join.arrive c.pending c.reaction k x.2 = answer
  have harrives := Join.arrives c.pending c.reaction k x.2
  rw [hanswer] at harrives
  cases harrives with
  | aside known =>
    refine ⟨[], _, .waits hanswer, ?_⟩
    rw [List.append_nil]
    refine { h with sits := fun f' hf' hopen y hy hheard => ?_ }
    rcases List.mem_cons.1 hheard with rfl | hheard
    · obtain ⟨g, hg, hbuffers⟩ := known ((h.holds_iff hfamilies hf' hy).2 ⟨hk, harrived, hopen⟩)
      obtain ⟨-, f₀, hf₀, -, hcollects⟩ := h.collects g hg
      obtain ⟨i, u, hi, hid⟩ := Generation.buffers_iff.1 hbuffers
      obtain ⟨p, -, hsibling, -⟩ := hcollects.seats i u hi
      obtain ⟨rfl, -⟩ := hfamilies.same_sibling hf₀ hf' hsibling hy hid
      exact ⟨g, hg, hcollects.parent, hbuffers⟩
    · exact h.sits f' hf' hopen y hy hheard
  | refused holds refuses => exact absurd refuses (h.unrefused hfamilies hf hx holds)
  | noted holds finds lacks =>
    obtain rfl := Option.some.inj (finds.isSplit.symm.trans (hfamilies.split f hf x hx))
    obtain ⟨-, -, hopen⟩ := (h.holds_iff hfamilies hf hx).1 holds
    refine ⟨[], _, .waits hanswer, ?_⟩
    rw [List.append_nil]
    exact h.noted hfamilies hf hopen hx harrived finds lacks
  | completed holds finds complete =>
    obtain rfl := Option.some.inj (finds.isSplit.symm.trans (hfamilies.split f hf x hx))
    obtain ⟨-, -, hopen⟩ := (h.holds_iff hfamilies hf hx).1 holds
    exact ⟨[f], h.completed hfamilies hf hopen hx harrived finds complete hanswer⟩

/-- A family whose siblings have all been announced is whole. -/
theorem Sound.of_all_heard (h : Sound families arrived heard emitted c)
    (hfamilies : Families c.inputs families) (reads : c.inputs ≠ []) (hf : f ∈ families)
    (all : f.siblings ⊆ heard) : f ∈ emitted := by
  by_contra hopen
  have hsits : ∀ x ∈ f.siblings, ∃ g ∈ c.pending, g.parent = f.original ∧ g.buffers x.2 = true :=
    fun x hx => h.sits f hf hopen x hx (all hx)
  obtain ⟨x, hx⟩ : ∃ x, x ∈ f.siblings := by
    refine List.exists_mem_of_length_pos ?_
    rw [hfamilies.length hf]
    exact List.length_pos_iff.2 reads
  obtain ⟨g, hg, hparent, -⟩ := hsits x hx
  obtain ⟨hlacks, f', hf', -, hcollects⟩ := h.collects g hg
  obtain rfl : f' = f := hfamilies.same_original hf' hf
    (congrArg Token.id (hcollects.parent.symm.trans hparent))
  have hcomplete : g.isComplete = true := by
    refine hcollects.complete hfamilies hf' fun y hy => ?_
    obtain ⟨g', hg', hparent', hbuffers⟩ := hsits y hy
    obtain rfl : g' = g := List.inj_on_of_nodup_map h.parents hg' hg
      (congrArg Token.id (hparent'.trans hparent.symm))
    exact hbuffers
  rw [hcomplete] at hlacks
  cases hlacks

/-- When all families are whole, nothing stays in the join or behind its inputs. -/
theorem Sound.cleared (h : Sound families arrived heard emitted c) (all : families ⊆ emitted) :
    c.pending = [] ∧ c.lying = 0 := by
  constructor
  · refine List.eq_nil_iff_forall_not_mem.2 fun g hg => ?_
    obtain ⟨-, f, hf, hopen, -⟩ := h.collects g hg
    exact hopen (all hf)
  · refine Multiset.eq_zero_of_forall_notMem fun x hx => ?_
    obtain ⟨hcame, hopens⟩ := (h.lies x).1 hx
    obtain ⟨f, hf, hsibling⟩ := h.known x hcame
    exact hopens f (all hf) hsibling

end Confluence
end RecipeNet
