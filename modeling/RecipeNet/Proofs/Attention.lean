import RecipeNet.Proofs.Presence

/-!
Whether joins heed what they are told. When a net is at rest, everyone who is behind
an input of a join sits in the join, and no generation is complete, if no other step
reads the places of joins and no token is held twice.
-/

namespace RecipeNet

/-- If the step is a join, none of its generations is complete, and everyone sits in
it who is behind its inputs and of whom it is not still to be told. -/
def Slot.Heeds (hs : List Holding) (due : Nat → Nat × TokenId → Nat) (slot : Slot) : Prop :=
  ∀ inputs pending, slot.transition = .join inputs pending →
    (∀ g ∈ pending, g.isComplete = false) ∧
    ∀ k p, slot.inputs[k]? = some p → ∀ id,
      (stock hs).count (p, id) ≤ due k (p, id) + slot.sitters.count (p, id)

theorem Slot.Heeds.mono {hs : List Holding} {due due' : Nat → Nat × TokenId → Nat} {slot : Slot}
    (h : slot.Heeds hs due) (hle : ∀ k x, due k x ≤ due' k x) : slot.Heeds hs due' := by
  intro inputs pending htr
  obtain ⟨hopen, hseated⟩ := h inputs pending htr
  refine ⟨hopen, fun k p hk id => (hseated k p hk id).trans ?_⟩
  exact Nat.add_le_add_right (hle k (p, id)) _

namespace Engine

variable {e : Engine} {skip : List Nat} {owed made : List (Nat × Token)} {queue : List Notice}
  {i : Nat} {slot : Slot}

/-- A net whose joins have nothing left to be told. -/
def Settled (e : Engine) : Prop :=
  e.plan.Reserved → e.plan.Gathers → ∀ slot ∈ e.slots, slot.Heeds e.holdings fun _ _ => 0

/-- How often a step is still to be told that an identity has come into the place
behind an input. -/
def due (i : Nat) (owed : List (Nat × Token)) (queue : List Notice) (k : Nat)
    (x : Nat × TokenId) : Nat :=
  (marks queue).count (i, k, x.2) + (entries owed).count x

/-- A net amid a cascade whose joins, but for the steps at `skip`, have been told of
all tokens that are neither owed nor in the queue. -/
structure Heedful (skip : List Nat) (owed : List (Nat × Token)) (queue : List Notice)
    (e : Engine) : Prop where
  joins : e.plan.Reserved → e.plan.Gathers → ∀ i slot, i ∉ skip → e.slots[i]? = some slot →
    slot.Heeds e.holdings (due i owed queue)
  nested : ∀ i slot nest t child, i ∉ skip → e.slots[i]? = some slot →
    slot.transition = .busy nest t child → child.Throughout Settled

namespace Heedful

theorem settled (h : e.Heedful [] [] []) : e.Throughout Settled := by
  refine .intro (fun hplan hgathers slot hs => ?_) fun slot hs nest t child ht => ?_
  · obtain ⟨i, hi⟩ := List.mem_iff_getElem?.1 hs
    exact h.joins hplan hgathers i slot List.not_mem_nil hi
  · obtain ⟨i, hi⟩ := List.mem_iff_getElem?.1 hs
    exact h.nested i slot nest t child List.not_mem_nil hi ht

theorem of_settled (h : e.Throughout Settled) (owed : List (Nat × Token)) (queue : List Notice) :
    e.Heedful [] owed queue :=
  ⟨fun hplan hgathers _ slot _ hi =>
      (h.here hplan hgathers slot (List.mem_of_getElem? hi)).mono fun _ _ => Nat.zero_le _,
    fun _ _ _ _ _ _ hi ht => h.child (List.mem_of_getElem? hi) ht⟩

theorem attend {n : Notice} (h : e.Heedful [] owed (n :: queue)) :
    e.Heedful [n.slot] owed queue := by
  refine ⟨fun hplan hgathers j slot hj hat => ?_, fun j slot nest t child _ =>
    h.nested j slot nest t child List.not_mem_nil⟩
  refine (h.joins hplan hgathers j slot List.not_mem_nil hat).mono fun k x => ?_
  have hother : (j, k, x.2) ≠ (n.slot, n.input, n.token.id) := fun heq =>
    hj (List.mem_singleton.2 (congrArg Prod.fst heq))
  simp only [due]
  rw [marks_cons, Multiset.count_cons_of_ne hother]

theorem drop {n : Notice} (h : e.Heedful [] owed (n :: queue))
    (hnone : e.slots[n.slot]? = none) : e.Heedful [] owed queue := by
  have hother : ∀ j slot, e.slots[j]? = some slot → j ∉ [n.slot] := by
    intro j slot hat hmem
    rw [List.mem_singleton.1 hmem, hnone] at hat
    cases hat
  exact ⟨fun hplan hgathers j slot _ hat => h.attend.joins hplan hgathers j slot (hother j slot hat)
    hat, h.nested⟩

theorem setOut (h : e.Heedful [] owed queue) : e.Heedful [i] owed queue :=
  ⟨fun hplan hgathers j slot _ => h.joins hplan hgathers j slot List.not_mem_nil,
    fun j slot nest t child _ => h.nested j slot nest t child List.not_mem_nil⟩

/-- The work of a step concerns the joins beside it only through what it puts into
places. -/
theorem work (h : e.Heedful [i] owed queue) {hs : List Holding} (tr : Transition)
    (grows : ∀ x, (stock hs).count x ≤ (stock e.holdings).count x + (entries made).count x) :
    (e.become i hs tr).Heedful [i] (owed ++ made) queue := by
  refine ⟨fun hplan hgathers j slot hj hat => ?_, fun j slot nest t child hj hat ht => ?_⟩
  all_goals
    have hij : i ≠ j := fun heq => hj (List.mem_singleton.2 heq.symm)
    rw [become_slot_ne hs tr hij] at hat
  · intro inputs pending htr
    obtain ⟨hopen, hseated⟩ := h.joins hplan hgathers j slot hj hat inputs pending htr
    refine ⟨hopen, fun k p hk id => ?_⟩
    have hbound := hseated k p hk id
    have hgrows := grows (p, id)
    simp only [due] at hbound ⊢
    rw [entries_append, Multiset.count_add]
    change (stock hs).count (p, id) ≤ _
    omega
  · exact h.nested j slot nest t child hj hat ht

theorem finish (h : e.Heedful [i] owed queue) (hi : e.slots[i]? = some slot)
    (joins : e.plan.Reserved → e.plan.Gathers → slot.Heeds e.holdings (due i owed queue))
    (nested : ∀ nest t child, slot.transition = .busy nest t child → child.Throughout Settled) :
    e.Heedful [] owed queue := by
  refine ⟨fun hplan hgathers j slot' _ hat => ?_, fun j slot' nest t child _ hat ht => ?_⟩
  all_goals by_cases hij : j = i
  · subst hij
    obtain rfl : slot = slot' := Option.some.inj (hi.symm.trans hat)
    exact joins hplan hgathers
  · exact h.joins hplan hgathers j slot' (by simpa using hij) hat
  · subst hij
    obtain rfl : slot = slot' := Option.some.inj (hi.symm.trans hat)
    exact nested nest t child ht
  · exact h.nested j slot' nest t child (by simpa using hij) hat ht

/-- Tokens of which note has been taken are in the queue. -/
theorem accepted (h : e.Heedful skip (owed ++ made) queue) (running : e.status = .running)
    (still : (e.acceptAll made).1.status ≠ .completed) :
    (e.acceptAll made).1.Heedful skip owed (queue ++ (e.acceptAll made).2.1) := by
  obtain ⟨hnotices, ⟨x, -, hold, -, -, hended, -⟩ | ⟨hsame, -, -⟩⟩ := acceptAll_running running made
  · rw [hended] at still
    exact absurd rfl still
  · rw [hsame, hnotices]
    refine ⟨fun hplan hgathers j slot hj hat inputs pending htr => ?_, h.nested⟩
    obtain ⟨hopen, hseated⟩ := h.joins hplan hgathers j slot hj hat inputs pending htr
    refine ⟨hopen, fun k p hk id => ?_⟩
    have hbound := hseated k p hk id
    have hmarks := entries_le_marks made id hat hk
    simp only [due] at hbound ⊢
    rw [entries_append, Multiset.count_add] at hbound
    rw [marks_append, Multiset.count_add]
    omega

end Heedful

theorem Built.heedful_entered {fitter : Fitter} {plan : Plan} {e : Engine} (h : e.Built fitter plan)
    (t : Token) : (e.entered t).Heedful [] [(e.startPlace, t)] [] := by
  refine ⟨fun _ _ j slot _ hat inputs pending htr => ?_, fun j slot nest u child _ hat ht =>
    absurd ht (entered_vacant h t (List.mem_of_getElem? hat) nest u child)⟩
  obtain rfl : pending = [] := h.entered_joins (P := fun _ pending => pending = []) (fun _ => rfl) t
    slot (List.mem_of_getElem? hat) inputs pending htr
  refine ⟨List.forall_mem_nil _, fun k p _ id => ?_⟩
  have hbound := h.stock_entered t (p, id)
  simp only [due]
  omega

/-- A token that is held once is in one place at most. -/
theorem Exclusive.stock_nodup (h : e.Exclusive) : ((stock e.holdings).map (·.2)).Nodup := by
  have hle : (stock e.holdings).map (·.2) ≤ e.work.map (·.id) := by
    rw [work_eq, stock, Multiset.map_map]
    have htokens : (spread Holding.tokens e.holdings).map (fun x => x.2.id) =
        ((e.holdings.flatMap (·.tokens) : List Token) : Multiset Token).map (·.id) := by
      rw [← spread_tokens, Multiset.map_map]
      rfl
    change (spread Holding.tokens e.holdings).map (fun x => x.2.id) ≤ _
    rw [htokens]
    exact Multiset.map_le_map (Multiset.coe_le.2 (List.sublist_append_left _ _).subperm)
  exact Multiset.nodup_of_le hle h

theorem Exclusive.alone (h : e.Exclusive) {p q : Nat} {id : TokenId}
    (hp : (p, id) ∈ stock e.holdings) (hq : (q, id) ∈ stock e.holdings) :
    p = q ∧ (stock e.holdings).count (p, id) = 1 := by
  have hsame := Multiset.inj_on_of_nodup_map h.stock_nodup _ hp _ hq rfl
  have hstock := Multiset.Nodup.of_map _ h.stock_nodup
  exact ⟨congrArg Prod.fst hsame, Multiset.count_eq_one_of_mem hstock hp⟩

end Engine

/-- What a notice tells a join is heeded if the token is covered by the seats that are
taken then. -/
theorem Slot.Heeds.told {hs : List Holding} {owed : List (Nat × Token)}
    {queue : List Engine.Notice} {i k inputs : Nat} {t : Token} {slot : Slot}
    {pending : List Generation} (h : slot.Heeds hs (Engine.due i owed (⟨i, k, t⟩ :: queue)))
    (htr : slot.transition = .join inputs pending) {sitters : Multiset (Nat × TokenId)}
    (grows : slot.sitters ≤ sitters)
    (covers : ∀ p, slot.inputs[k]? = some p → (p, t.id) ∈ stock hs →
      (stock hs).count (p, t.id) ≤ sitters.count (p, t.id)) :
    ∀ k' p, slot.inputs[k']? = some p → ∀ id, (stock hs).count (p, id) ≤
      Engine.due i owed queue k' (p, id) + sitters.count (p, id) := by
  intro k' p hk id
  by_cases hsame : (i, k', id) = (i, k, t.id)
  · obtain ⟨-, rfl, rfl⟩ : i = i ∧ k' = k ∧ id = t.id := by simpa using hsame
    by_cases hthere : (p, t.id) ∈ stock hs
    · exact Nat.le_add_left_of_le (covers p hk hthere)
    · rw [Multiset.count_eq_zero_of_notMem hthere]
      exact Nat.zero_le _
  · have hbound := (h inputs pending htr).2 k' p hk id
    have hmore := Multiset.count_le_of_le (p, id) grows
    simp only [Engine.due, marks_cons] at hbound ⊢
    rw [Multiset.count_cons_of_ne hsame] at hbound
    omega

namespace Scene.Tidy

variable {fitter : Fitter} {last : Supply} {sc : Scene} {i k inputs : Nat} {slot : Slot}
  {pending placed : List Generation} {t parent : Token} {g : Generation} {j seat : Nat}
  {owed : List (Nat × Token)} {queue : List Engine.Notice}

theorem full (hf : fitter.Regular) (h : sc.Tidy fitter last) (hs : slot ∈ sc.engine.slots)
    (htr : slot.transition = .join inputs pending) :
    ∀ g ∈ pending, g.Full slot.inputs.length := by
  intro g hg
  have hsuits := (h.steadfast.sound.fits.slot hf hs).suits
  rw [htr] at hsuits
  have hfull := (h.steadfast.orderly.here slot hs _ _ htr g hg).1.1
  rwa [hsuits.1] at hfull

/-- A token that is set aside sits in the join already, where it is. -/
theorem covers_aside (hf : fitter.Regular) (h : sc.Tidy fitter last)
    (hplan : sc.engine.plan.Reserved) (hgathers : sc.engine.plan.Gathers)
    (hs : slot ∈ sc.engine.slots) (htr : slot.transition = .join inputs pending) {p : Nat}
    (hg : g ∈ pending) (buffers : g.buffers t = true)
    (hthere : (p, t.id) ∈ stock sc.engine.holdings) :
    (stock sc.engine.holdings).count (p, t.id) ≤ slot.sitters.count (p, t.id) := by
  obtain ⟨entry, hentry, hsome⟩ := List.any_eq_true.1 buffers
  obtain ⟨u, rfl, hid⟩ := (Option.any_eq_true _ _).1 hsome
  obtain ⟨seat, hseat⟩ := List.mem_iff_getElem?.1 hentry
  have hlt := (List.getElem?_eq_some_iff.1 hseat).1
  rw [show g.slots.length = _ from h.full hf hs htr g hg] at hlt
  have hsits : (slot.inputs[seat], t.id) ∈ slot.sitters := by
    rw [Slot.sitters_join htr]
    exact Join.mem_sitters.2 ⟨g, hg, Generation.mem_sitters.2 ⟨seat, u,
      Generation.mem_siblings.2 hseat, List.getElem?_eq_getElem hlt, Token.same_iff.1 hid⟩⟩
  have hthere' := Multiset.mem_of_le (h.kempt.here.current hplan slot hs) hsits
  obtain ⟨hplace, hone⟩ := (h.exclusive hf hgathers).alone hthere hthere'
  rw [hone, hplace]
  exact Multiset.one_le_count_iff_mem.2 hsits

/-- Everyone whom a join has been told of, when it has found a seat for a token. -/
theorem told_seated (hf : fitter.Regular) (h : sc.Tidy fitter last)
    (hgathers : sc.engine.plan.Gathers) (htr : slot.transition = .join inputs pending)
    (heeds : slot.Heeds sc.engine.holdings (Engine.due i owed (⟨i, k, t⟩ :: queue)))
    (finds : Join.Finds pending (sc.engine.reaction slot) t parent placed j g seat) :
    ∀ k' p, slot.inputs[k']? = some p → ∀ id, (stock sc.engine.holdings).count (p, id) ≤
      Engine.due i owed queue k' (p, id) + (Join.sitters slot.inputs
        (placed.set j { g with slots := g.slots.set seat (some t) })).count (p, id) := by
  obtain ⟨p', hold, hp', hat, hholds⟩ := Reaction.holds_iff.1 finds.holds
  obtain ⟨u, hu, hid⟩ := Holding.holds_iff.1 hholds
  have hthere' : (p', t.id) ∈ stock sc.engine.holdings := mem_stock.2 ⟨hold, hat, u, hu, hid⟩
  have hp : slot.inputs[seat]? = some p' := hp'
  rw [Join.sitters_seated finds.located finds.isPlaced finds.free hp]
  refine heeds.told htr ?_ fun p hk hthere => ?_
  · rw [Slot.sitters_join htr]
    exact Multiset.le_cons_self _ _
  · obtain ⟨rfl, hone⟩ := (h.exclusive hf hgathers).alone hthere hthere'
    rw [hone, Multiset.count_cons_self]
    omega

/-- Siblings are all there when another one has found a seat beside them. -/
theorem holds_seated (hf : fitter.Regular) (h : sc.Tidy fitter last)
    (hplan : sc.engine.plan.Reserved) (hs : slot ∈ sc.engine.slots)
    (htr : slot.transition = .join inputs pending)
    (finds : Join.Finds pending (sc.engine.reaction slot) t parent placed j g seat) :
    ∀ x ∈ ({ g with slots := g.slots.set seat (some t) } : Generation).siblings,
      (sc.engine.reaction slot).holds x.1 x.2 = true := by
  intro x hx
  rcases List.mem_cons.1 ((Generation.siblings_seated finds.free t).mem_iff.1 hx) with rfl | hx
  · exact finds.holds
  · rcases Join.located_cases finds.located finds.isPlaced with ⟨hj, -⟩ | ⟨rfl, -⟩
    · have hg := List.mem_of_getElem? hj
      exact (h.kempt.here.current hplan).holds hs htr hg (h.full hf hs htr g hg) hx
    · have hat := Generation.mem_siblings.1 hx
      simp [List.getElem?_replicate] at hat

/-- A join that fires when a token has found a seat takes those who leave their seats. -/
theorem heeds_fired (hf : fitter.Regular) (h : sc.Tidy fitter last)
    (hgathers : sc.engine.plan.Gathers) (hs : slot ∈ sc.engine.slots)
    (htr : slot.transition = .join inputs pending)
    (heeds : slot.Heeds sc.engine.holdings (Engine.due i owed (⟨i, k, t⟩ :: queue)))
    (finds : Join.Finds pending (sc.engine.reaction slot) t parent placed j g seat) {r' : Reaction}
    (fire : (sc.engine.reaction slot).fire
      ({ g with slots := g.slots.set seat (some t) } : Generation).siblings [(0, g.parent)] =
        (r', .ok true)) :
    ({ slot with transition := .join inputs (placed.eraseIdx j) } : Slot).Heeds r'.holdings
      (Engine.due i (owed ++ r'.produced) queue) := by
  have hopen := (heeds inputs pending htr).1
  have htold := h.told_seated hf hgathers htr heeds finds
  have hlt := (List.getElem?_eq_some_iff.1 finds.isPlaced).1
  rw [Join.sitters_perm (List.set_perm_cons_eraseIdx hlt _), Join.sitters_cons] at htold
  have hrest := Join.mem_of_located finds.located finds.isPlaced
  intro inputs' pending' hnow
  cases hnow
  rw [Slot.sitters_join rfl]
  refine ⟨fun g' hg' => hopen g' (hrest g' hg'), fun k' p hk id => ?_⟩
  have hapt := h.steadfast.sound.fits.slot hf hs
  obtain ⟨-, -, -, removed, made, hremoved, -, hproduced, hspread⟩ :=
    Reaction.fire_true fire hapt.outputs
  have hmade : r'.produced = made := hproduced
  -- What is taken out of the places is what has sat in the generation that fires.
  have hcount := congrArg (Multiset.count (p, id)) (stock_of_spread hspread)
  rw [Multiset.count_add, Multiset.count_add, Generation.sitters_removed hremoved] at hcount
  have hbound := htold k' p hk id
  rw [Multiset.count_add] at hbound
  simp only [Engine.due, hmade, entries_append, Multiset.count_add] at hbound ⊢
  simp only [Engine.reaction] at hcount
  omega

/-- What a join does about a token leaves everyone in a seat who is there. -/
theorem heeds_join (hf : fitter.Regular) (h : sc.Tidy fitter last)
    (hplan : sc.engine.plan.Reserved) (hgathers : sc.engine.plan.Gathers)
    (hs : slot ∈ sc.engine.slots) (htr : slot.transition = .join inputs pending)
    (heeds : slot.Heeds sc.engine.holdings (Engine.due i owed (⟨i, k, t⟩ :: queue)))
    {r' : Reaction} {pending' : List Generation}
    (arrives : Join.Arrives pending (sc.engine.reaction slot) k t (r', pending', .ok ())) :
    ({ slot with transition := .join inputs pending' } : Slot).Heeds r'.holdings
      (Engine.due i (owed ++ r'.produced) queue) := by
  have hopen := (heeds inputs pending htr).1
  generalize hout : (r', pending', (.ok () : Except Fault Unit)) = out at arrives
  intro inputs' pending'' hnow
  cases hnow
  rw [Slot.sitters_join rfl]
  cases arrives with
  | aside known =>
    cases hout
    refine ⟨hopen, ?_⟩
    simp only [Engine.reaction, List.append_nil]
    refine heeds.told htr (Slot.sitters_join htr).le fun p hk hthere => ?_
    obtain ⟨hold, hat, u, hu, hid⟩ := mem_stock.1 hthere
    obtain ⟨g, hg, hbuffers⟩ := known (Reaction.holds_iff.2 ⟨p, hold, hk, hat,
      Holding.holds_iff.2 ⟨u, hu, hid⟩⟩)
    rw [← Slot.sitters_join htr]
    exact h.covers_aside hf hplan hgathers hs htr hg hbuffers hthere
  | refused => cases hout
  | @noted parent placed j seat g _ finds lacks =>
    cases hout
    have hlt := (List.getElem?_eq_some_iff.1 finds.isPlaced).1
    refine ⟨fun g' hg' => ?_, ?_⟩
    · rcases List.mem_cons.1 ((List.set_perm_cons_eraseIdx hlt _).mem_iff.1 hg') with rfl | hrest
      · exact lacks
      · exact hopen g' (Join.mem_of_located finds.located finds.isPlaced g' hrest)
    · simp only [Engine.reaction, List.append_nil]
      exact h.told_seated hf hgathers htr heeds finds
  | completed _ finds =>
    unfold Join.complete at hout
    split at hout
    · cases hout
    · rename_i hfire
      cases hout
      have hfired := h.heeds_fired hf hgathers hs htr heeds finds hfire _ _ rfl
      rw [Slot.sitters_join rfl] at hfired
      exact hfired
    · rename_i hfire
      obtain ⟨-, x, hx, hgone⟩ := Reaction.fire_false hfire
      rw [h.holds_seated hf hplan hs htr finds x hx] at hgone
      cases hgone

end Scene.Tidy

end RecipeNet
