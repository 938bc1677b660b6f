import RecipeNet.Proofs.Net.Order

/-!
Offering tokens that have been offered before. A join passes over a token that
sits in the generation of its parent. Any other token it refuses or seats, and
with each one that it seats there are more siblings at hand than before, unless
it fires. So a net that works off notices without firing, and comes to no more
siblings at hand, has passed over all of them.
-/

namespace RecipeNet

theorem sum_map_eraseIdx {α : Type} (f : α → Nat) {xs : List α} {i : Nat} {x : α}
    (hx : xs[i]? = some x) : ((xs.eraseIdx i).map f).sum + f x = (xs.map f).sum := by
  obtain ⟨hlt, hat⟩ := List.getElem?_eq_some_iff.1 hx
  have hsum := ((List.getElem_cons_eraseIdx_perm hlt).map f).sum_nat
  rw [List.map_cons, List.sum_cons, hat] at hsum
  omega

namespace Generation

def atHand (r : Reaction) (g : Generation) : Nat :=
  g.slots.zipIdx.countP fun (slot, input) => slot.any (r.holds input ·)

variable {g : Generation} {r : Reaction} {k : Nat} {t : Token}

theorem atHand_seated (free : g.slots[k]? = some none) (held : r.holds k t = true) :
    ({ g with slots := g.slots.set k (some t) } : Generation).atHand r = g.atHand r + 1 := by
  have hset : (g.slots.set k (some t)).zipIdx = g.slots.zipIdx.set k (some t, k) := by
    apply List.ext_getElem?
    intro i
    rw [List.getElem?_zipIdx, List.getElem?_set, List.getElem?_set]
    by_cases hi : k = i
    · subst hi
      obtain ⟨hlt, -⟩ := List.getElem?_eq_some_iff.1 free
      simp [hlt]
    · simp [hi]
  obtain ⟨hlt, hat⟩ := List.getElem?_eq_some_iff.1 free
  have hlt' : k < g.slots.zipIdx.length := by rwa [List.length_zipIdx]
  unfold atHand
  rw [hset, List.countP_set hlt']
  simp [hat, held]

theorem atHand_refresh (g : Generation) (r : Reaction) : (g.refresh r).atHand r = g.atHand r := by
  have hall : ∀ (slots : List (Option Token)) (n : Nat),
      ((((slots.zipIdx n).map fun (slot, input) => slot.filter (r.holds input ·)).zipIdx n).countP
          fun (slot, input) => slot.any (r.holds input ·)) =
        (slots.zipIdx n).countP fun (slot, input) => slot.any (r.holds input ·) := by
    intro slots
    induction slots with
    | nil => exact fun _ => rfl
    | cons slot rest ih =>
      intro n
      rw [List.zipIdx_cons, List.map_cons, List.zipIdx_cons, List.countP_cons, List.countP_cons,
        ih (n + 1)]
      cases slot with
      | none => rfl
      | some t => by_cases hholds : r.holds n t = true <;> simp [Option.filter, hholds]
  exact hall g.slots 0

theorem atHand_new (parent : Token) (width : Nat) (r : Reaction) :
    (⟨parent, List.replicate width none⟩ : Generation).atHand r = 0 := by
  refine List.countP_eq_zero.2 fun x hx => ?_
  have hnone := List.eq_of_mem_replicate (List.fst_mem_of_mem_zipIdx hx)
  simp [hnone]

/-- A token that sits in a generation is passed over. -/
theorem seat_of_buffers (hk : k < g.slots.length) (h : g.buffers t = true) :
    g.seat r k t = .seated := by
  unfold seat
  rw [List.getElem?_eq_getElem hk]
  simp [h]

end Generation

namespace Join

def atHand (r : Reaction) (pending : List Generation) : Nat :=
  (pending.map (Generation.atHand r)).sum

def seats (pending : List Generation) (t : Token) : Bool :=
  t.parent.any fun parent => (pending.find? (·.parent.same parent)).any (·.buffers t)

variable {pending pending' : List Generation} {r r' : Reaction} {k : Nat} {t : Token}

theorem arrive_of_seats (h : seats pending t = true)
    (full : ∀ g ∈ pending, g.slots.length = r.inputs.length) (held : r.holds k t = true) :
    arrive pending r k t = (r, pending, .ok ()) := by
  obtain ⟨parent, hparent, hany⟩ := (Option.any_eq_true _ _).1 h
  obtain ⟨g, hfind, hbuffers⟩ := (Option.any_eq_true _ _).1 hany
  obtain ⟨place, hold, hk, -, -⟩ := Reaction.holds_iff.1 held
  obtain ⟨hlt, -⟩ := List.getElem?_eq_some_iff.1 hk
  have hseat : g.seat r k t = .seated := by
    refine Generation.seat_of_buffers ?_ hbuffers
    rw [full g (List.mem_of_find?_eq_some hfind)]
    exact hlt
  rw [List.find?_eq_bind_findIdx?_getElem?] at hfind
  obtain ⟨j, hindex, hat⟩ := Option.bind_eq_some_iff.1 hfind
  unfold arrive locate
  simp only [held, Bool.not_true, Bool.false_eq_true, if_false, hparent, hindex, hat, hseat]

/-- A generation that is complete but has lost a sibling is kept without it. -/
theorem complete_quiet {g : Generation} (h : complete pending g r = (r', pending', .ok ()))
    (quiet : ∀ a, .fired a ∉ r'.events) :
    r' = r ∧ atHand r pending' = atHand r pending + g.atHand r := by
  unfold complete at h
  split at h
  · cases h
  · rename_i mid hfire
    cases h
    have hevents := Reaction.fire_events hfire
    exact absurd (hevents ▸ List.mem_append_right _ List.mem_cons_self) (quiet _)
  · rename_i mid hfire
    cases h
    obtain ⟨rfl, -⟩ := Reaction.fire_false hfire
    refine ⟨rfl, ?_⟩
    simp only [atHand, List.map_append, List.sum_append, List.map_cons, List.map_nil,
      List.sum_singleton, Generation.atHand_refresh]

/-- A token that is given a free seat is one more at hand. -/
theorem seat_quiet {placed : List Generation} {g : Generation} {j slot : Nat}
    (hat : placed[j]? = some g) (free : g.slots[slot]? = some none) (held : r.holds slot t = true)
    (h : (if ({ g with slots := g.slots.set slot (some t) } : Generation).isComplete then
        complete (placed.eraseIdx j) { g with slots := g.slots.set slot (some t) } r
      else (r, placed.set j { g with slots := g.slots.set slot (some t) }, .ok ())) =
      (r', pending', .ok ())) (quiet : ∀ a, .fired a ∉ r'.events) :
    r' = r ∧ atHand r pending' = atHand r placed + 1 := by
  have hseated := Generation.atHand_seated free held
  have herase := sum_map_eraseIdx (Generation.atHand r) hat
  split at h
  · obtain ⟨rfl, hleft⟩ := complete_quiet h quiet
    refine ⟨rfl, ?_⟩
    rw [hseated] at hleft
    unfold atHand at hleft ⊢
    omega
  · cases h
    refine ⟨rfl, ?_⟩
    have hset := sum_map_set (Generation.atHand r) hat
      { g with slots := g.slots.set slot (some t) }
    rw [hseated] at hset
    unfold atHand
    omega

/-- A token that a join takes without firing sits there already, or is seated. -/
theorem arrive_quiet (held : r.holds k t = true)
    (harrive : arrive pending r k t = (r', pending', .ok ())) (quiet : ∀ a, .fired a ∉ r'.events) :
    r' = r ∧ (pending' = pending ∧ seats pending t = true ∨ atHand r pending < atHand r pending') := by
  unfold arrive at harrive
  simp only [held, Bool.not_true, Bool.false_eq_true, if_false] at harrive
  split at harrive
  · cases harrive
  rename_i parent hparent
  rcases locate_cases pending parent r.inputs.length with
    ⟨j, g, hlocate, hat, hindex⟩ | ⟨hlocate, -⟩
  · simp only [hlocate, hat] at harrive
    cases hseat : g.seat r k t with
    | seated =>
      simp only [hseat] at harrive
      cases harrive
      refine ⟨rfl, .inl ⟨rfl, ?_⟩⟩
      unfold seats
      rw [hparent, Option.any_some, List.find?_eq_bind_findIdx?_getElem?, hindex, Option.bind_some,
        hat]
      exact Generation.seat_seated hseat
    | none reason =>
      simp only [hseat] at harrive
      cases harrive
    | slot slot =>
      simp only [hseat] at harrive
      obtain ⟨-, free, hheld⟩ := Generation.seat_slot held hseat
      obtain ⟨rfl, hgrows⟩ := seat_quiet hat free hheld harrive quiet
      exact ⟨rfl, .inr (by omega)⟩
  · simp only [hlocate, List.getElem?_concat_length] at harrive
    obtain ⟨place, hold, hk, -, -⟩ := Reaction.holds_iff.1 held
    obtain ⟨hlt, -⟩ := List.getElem?_eq_some_iff.1 hk
    simp only [Generation.seat_new parent hlt] at harrive
    have hfree : (List.replicate r.inputs.length (none : Option Token))[k]? = some none := by
      simp [hlt]
    have hplaced : atHand r (pending ++ [⟨parent, List.replicate r.inputs.length none⟩]) =
        atHand r pending := by
      simp only [atHand, List.map_append, List.sum_append, List.map_cons, List.map_nil,
        List.sum_singleton, Generation.atHand_new, Nat.add_zero]
    obtain ⟨rfl, hgrows⟩ := seat_quiet (g := ⟨parent, List.replicate r.inputs.length none⟩)
      List.getElem?_concat_length hfree held harrive quiet
    exact ⟨rfl, .inr (by omega)⟩

end Join

namespace Transition

def atHand (r : Reaction) : Transition → Nat
  | .join _ pending => Join.atHand r pending
  | _ => 0

/-- Whether a token sits in a step already. Only joins have seats. -/
def seats (t : Token) : Transition → Bool
  | .join _ pending => Join.seats pending t
  | _ => true

theorem seats_of_other {tr : Transition} (t : Token)
    (other : ∀ inputs pending, tr ≠ .join inputs pending) : tr.seats t = true := by
  cases tr with
  | join inputs pending => exact absurd rfl (other inputs pending)
  | _ => rfl

/-- A step that does not join, and could not take the token, is left alone. -/
theorem arrive_passed {tr : Transition} {r : Reaction} {k : Nat} {t : Token} {s : Supply}
    (drive : Drive) (fuel : Nat) (unheld : tr.eager = true → r.holds k t = false)
    (other : ∀ inputs pending, tr ≠ .join inputs pending) :
    tr.arrive drive fuel r k t s = some ⟨r, tr, s, .ok ()⟩ := by
  cases tr with
  | join inputs pending => exact absurd rfl (other inputs pending)
  | busy => rfl
  | pass => simp only [arrive, unheld rfl, Bool.false_eq_true, if_false]
  | split => simp only [arrive, unheld rfl, Bool.false_eq_true, if_false]
  | task => simp only [arrive, unheld rfl, Bool.false_eq_true, if_false]
  | routed => simp only [arrive, unheld rfl, Bool.false_eq_true, if_false]
  | idle => simp only [arrive, unheld rfl, Bool.false_eq_true, if_false]

end Transition

namespace Engine

variable {e : Engine} {i : Nat} {slot : Slot} {tr : Transition} {s : Supply} {queue : List Notice}

/-- How many siblings that the joins of a net keep are in their places. -/
def atHand (e : Engine) : Nat :=
  (e.slots.map fun slot => slot.transition.atHand (e.reaction slot)).sum

theorem atHand_become (stands : e.slots[i]? = some slot) (tr : Transition) :
    (e.become i e.holdings tr).atHand + slot.transition.atHand (e.reaction slot) =
      e.atHand + tr.atHand (e.reaction slot) := by
  have hset : (e.slots.modify i fun slot => { slot with transition := tr }) =
      e.slots.set i { slot with transition := tr } := by
    rw [List.modify_eq_set_getElem?, stands]
    rfl
  have hsum := sum_map_set (fun slot : Slot => slot.transition.atHand (e.reaction slot)) stands
    { slot with transition := tr }
  unfold atHand become
  rw [hset]
  exact hsum

/-- A running net in which no step could take a token, joins aside. -/
structure Still (e : Engine) : Prop where
  running : e.status = .running
  active : ∀ slot ∈ e.slots, slot.phase = .active
  unheld : ∀ slot ∈ e.slots, slot.transition.eager = true →
    ∀ k t, (e.reaction slot).holds k t = false

theorem Still.become (h : e.Still) (i : Nat) (lazy : tr.eager = false) :
    (e.become i e.holdings tr).Still := by
  refine ⟨h.running, fun slot' hs => ?_, fun slot' hs heager => ?_⟩
  · rcases mem_become hs with hold | ⟨old, hat, rfl⟩
    · exact h.active slot' hold
    · exact h.active old (List.mem_of_getElem? hat)
  · rcases mem_become hs with hold | ⟨old, hat, rfl⟩
    · exact h.unheld slot' hold heager
    · rw [lazy] at heager
      cases heager

def Offers (e : Engine) (queue : List Notice) : Prop :=
  ∀ n ∈ queue, ∀ slot, e.slots[n.slot]? = some slot →
    (e.reaction slot).holds n.input n.token = true

theorem Offers.become (h : e.Offers queue) (i : Nat) (tr : Transition) :
    (e.become i e.holdings tr).Offers queue := by
  intro n hn slot' hat
  by_cases hi : i = n.slot
  · subst hi
    cases hold : e.slots[n.slot]? with
    | none => simp [Engine.become, hold] at hat
    | some old =>
      rw [become_slot _ _ hold] at hat
      cases hat
      exact h n hn old hold
  · rw [become_slot_ne _ _ hi] at hat
    exact h n hn slot' hat

/-- The step of a notice knows the token. -/
def Settles (e : Engine) (n : Notice) : Prop :=
  ∀ slot, e.slots[n.slot]? = some slot → slot.transition.seats n.token = true

/-- A step that puts nothing into places gives nobody notice. -/
theorem visited_quiet (e : Engine) (i : Nat) (slot : Slot) (tr : Transition) (s : Supply)
    (events : List Event) : e.visited i ⟨{ e.reaction slot with events }, tr, s, .ok ()⟩ =
      ⟨e.become i e.holdings tr, [], s, events, .ok ()⟩ := by
  simp only [visited, reaction, acceptAll, List.append_nil]
  rfl

theorem andThen_quiet (e : Engine) (i : Nat) (slot : Slot) (tr : Transition) (s : Supply)
    (drive : Drive) (queue : List Notice) :
    (e.visited i ⟨e.reaction slot, tr, s, .ok ()⟩).andThen drive queue =
      drive (e.become i e.holdings tr) queue s := by
  have hvisit := visited_quiet e i slot tr s []
  have hself : { e.reaction slot with events := [] } = e.reaction slot := rfl
  rw [hself] at hvisit
  rw [hvisit]
  change (drive (e.become i e.holdings tr) (queue ++ []) s).map (·.after []) = _
  rw [List.append_nil]
  cases drive (e.become i e.holdings tr) queue s <;> rfl

theorem visited_reports (e : Engine) (i : Nat) (reacted : Reacted) :
    (e.visited i reacted).result = reacted.result ∧
      ∀ event ∈ reacted.reaction.events, event ∈ (e.visited i reacted).events := by
  obtain ⟨r, tr, s, result⟩ := reacted
  cases result with
  | error f => exact ⟨rfl, fun _ hmem => hmem⟩
  | ok u => exact ⟨rfl, fun event hmem => List.mem_append_left _ hmem⟩

/-- A run that ends well after a visit has reported what the visit has. -/
theorem andThen_ok {reacted : Reacted} {drive : Drive} {run : Run}
    (h : (e.visited i reacted).andThen drive queue = some run) (ok : run.result = .ok ()) :
    reacted.result = .ok () ∧ ∀ event ∈ reacted.reaction.events, event ∈ run.events := by
  obtain ⟨hresult, hevents⟩ := e.visited_reports i reacted
  unfold Visit.andThen at h
  split at h
  · obtain rfl := Option.some.inj h
    cases ok
  · rename_i hok
    obtain ⟨last, -, rfl⟩ := Option.map_eq_some_iff.1 h
    exact ⟨hresult.symm.trans hok, fun event hmem => List.mem_append_left _ (hevents event hmem)⟩

/-- Notices that are worked off without firing are passed over, or there are more
siblings at hand than before. -/
theorem drive_quiet {fuel : Nat} {run : Run} (still : e.Still) (offers : e.Offers queue)
    (hrun : drive fuel e queue s = some run) (ok : run.result = .ok ())
    (quiet : ∀ a, .fired a ∉ run.events) : run.events = [] ∧
      (run.engine = e ∧ (∀ n ∈ queue, e.Settles n) ∨ e.atHand < run.engine.atHand) := by
  induction fuel generalizing e queue s run with
  | zero => cases hrun
  | succ fuel ih =>
    cases queue with
    | nil =>
      obtain rfl := Option.some.inj hrun
      exact ⟨rfl, .inl ⟨rfl, List.forall_mem_nil _⟩⟩
    | cons n queue =>
      have hrest : e.Offers queue := fun m hm => offers m (List.mem_cons_of_mem _ hm)
      simp only [drive, still.running, ne_eq, not_true, if_false] at hrun
      cases hslot : e.slots[n.slot]? with
      | none =>
        simp only [hslot] at hrun
        obtain ⟨hevents, hcases⟩ := ih still hrest hrun ok quiet
        refine ⟨hevents, hcases.imp_left fun h => ⟨h.1, ?_⟩⟩
        refine List.forall_mem_cons.2 ⟨fun slot hat => ?_, h.2⟩
        rw [hslot] at hat
        cases hat
      | some slot =>
        have hactive := still.active slot (List.mem_of_getElem? hslot)
        have hheld := offers n List.mem_cons_self slot hslot
        simp only [hslot, hactive, not_true, if_false] at hrun
        -- A join may give a token a seat without firing; no other step does anything about it.
        by_cases hjoin : ∃ inputs pending, slot.transition = .join inputs pending
        · obtain ⟨inputs, pending, htr⟩ := hjoin
          cases harrive : Join.arrive pending (e.reaction slot) n.input n.token with
          | mk r' after =>
            obtain ⟨pending', result⟩ := after
            simp only [htr, Transition.arrive, harrive] at hrun
            obtain ⟨hok, hreports⟩ := andThen_ok hrun ok
            obtain rfl : result = .ok () := hok
            obtain ⟨rfl, hcases⟩ := Join.arrive_quiet hheld harrive
              fun a ha => quiet a (hreports _ ha)
            rw [andThen_quiet] at hrun
            have hgrows := atHand_become hslot (.join inputs pending')
            rw [htr] at hgrows
            simp only [Transition.atHand] at hgrows
            rcases hcases with ⟨rfl, hseats⟩ | hmore
            · have hself := become_self hslot
              rw [htr] at hself
              rw [hself] at hrun
              obtain ⟨hevents, hlater⟩ := ih still hrest hrun ok quiet
              refine ⟨hevents, hlater.imp_left fun h => ⟨h.1, ?_⟩⟩
              refine List.forall_mem_cons.2 ⟨fun slot' hat => ?_, h.2⟩
              cases hslot.symm.trans hat
              rw [htr]
              exact hseats
            · obtain ⟨hevents, hlater⟩ := ih (still.become n.slot rfl) (hrest.become n.slot _) hrun
                ok quiet
              refine ⟨hevents, .inr ?_⟩
              rcases hlater with ⟨hsame, -⟩ | hlater
              · rw [hsame]
                omega
              · omega
        · have hother : ∀ inputs pending, slot.transition ≠ .join inputs pending :=
            fun inputs pending htr => hjoin ⟨inputs, pending, htr⟩
          have hunheld := fun heager =>
            still.unheld slot (List.mem_of_getElem? hslot) heager n.input n.token
          simp only [Transition.arrive_passed _ _ hunheld hother, andThen_quiet,
            become_self hslot] at hrun
          obtain ⟨hevents, hlater⟩ := ih still hrest hrun ok quiet
          refine ⟨hevents, hlater.imp_left fun h => ⟨h.1, ?_⟩⟩
          refine List.forall_mem_cons.2 ⟨fun slot' hat => ?_, h.2⟩
          cases hslot.symm.trans hat
          exact Transition.seats_of_other n.token hother

/-- Notices of tokens that sit already are passed over. -/
theorem drive_settled {fuel : Nat} (still : e.Still) (offers : e.Offers queue)
    (full : ∀ slot ∈ e.slots, ∀ inputs pending, slot.transition = .join inputs pending →
      ∀ g ∈ pending, g.slots.length = slot.inputs.length)
    (settled : ∀ n ∈ queue, e.Settles n) (enough : queue.length < fuel) :
    drive fuel e queue s = some ⟨e, s, [], .ok ()⟩ := by
  induction queue generalizing fuel with
  | nil =>
    obtain ⟨fuel, rfl⟩ := Nat.exists_eq_succ_of_ne_zero (Nat.ne_zero_of_lt enough)
    rfl
  | cons n queue ih =>
    obtain ⟨fuel, rfl⟩ := Nat.exists_eq_succ_of_ne_zero (Nat.ne_zero_of_lt enough)
    obtain ⟨hfirst, hsettled⟩ := List.forall_mem_cons.1 settled
    have hrest : e.Offers queue := fun m hm => offers m (List.mem_cons_of_mem _ hm)
    have hlater : drive fuel e queue s = some ⟨e, s, [], .ok ()⟩ :=
      ih hrest hsettled (Nat.lt_of_succ_lt_succ enough)
    simp only [drive, still.running, ne_eq, not_true, if_false]
    cases hslot : e.slots[n.slot]? with
    | none => exact hlater
    | some slot =>
      have hmem := List.mem_of_getElem? hslot
      have harrive : slot.transition.arrive (drive fuel) fuel (e.reaction slot) n.input n.token s =
          some ⟨e.reaction slot, slot.transition, s, .ok ()⟩ := by
        by_cases hjoin : ∃ inputs pending, slot.transition = .join inputs pending
        · obtain ⟨inputs, pending, htr⟩ := hjoin
          have hheld := offers n List.mem_cons_self slot hslot
          have hseats := hfirst slot hslot
          rw [htr] at hseats ⊢
          simp only [Transition.arrive, Join.arrive_of_seats hseats
            (full slot hmem inputs pending htr) hheld]
        · exact Transition.arrive_passed _ _
            (fun heager => still.unheld slot hmem heager n.input n.token)
            fun inputs pending htr => hjoin ⟨inputs, pending, htr⟩
      simp only [still.active slot hmem, not_true, if_false, harrive, andThen_quiet,
        become_self hslot]
      exact hlater

end Engine
end RecipeNet
