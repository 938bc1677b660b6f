import RecipeNet.Proofs.Net.Dealing
import RecipeNet.Proofs.Net.Nesting

/-!
What a step does with the tokens of its net when it reacts, whatever it is fitted with and however
the reaction ends. Each reaction is a sequence of dealings; if there is a mishap, the reaction
ends in its fault.
-/

namespace RecipeNet

/-- What has been done with the tokens of a net when an operation ends with some answer. -/
def Engine.Keeps (e : Engine) (events : List Event) (e' : Engine) (result : Except Fault Unit) : Prop :=
  ∃ changes loss, Dealings e events changes loss e' ∧ ∀ lost ∈ loss, result = .error lost.fault

namespace Engine.Keeps

variable {e mid e' : Engine} {events more : List Event} {result : Except Fault Unit}

theorem refl (e : Engine) (result : Except Fault Unit) : e.Keeps [] e result :=
  ⟨[], none, .nil e, nofun⟩

theorem of_dealing {changes : List Change} (h : Dealing e events changes e')
    (result : Except Fault Unit) : e.Keeps events e' result :=
  ⟨changes, none, .of_dealing h, nofun⟩

theorem of_mishap {changes : List Change} {loss : Loss} (h : Mishap e events changes loss e') :
    e.Keeps events e' (.error loss.fault) := by
  refine ⟨changes, some loss, .of_mishap h, fun lost hlost => ?_⟩
  rw [Option.mem_some.1 hlost]

/-- What goes on after it has gone well. -/
theorem trans (h : e.Keeps events mid (.ok ())) (h' : mid.Keeps more e' result) :
    e.Keeps (events ++ more) e' result := by
  obtain ⟨changes, loss, hdealings, hnone⟩ := h
  obtain ⟨others, loss', hdealings', hloss⟩ := h'
  cases loss with
  | none => exact ⟨changes ++ others, loss', hdealings.andThen hdealings', hloss⟩
  | some lost => cases hnone lost rfl

/-- What has gone well so far may yet end in a fault. -/
theorem because (h : e.Keeps events e' (.ok ())) (result : Except Fault Unit) :
    e.Keeps events e' result := by
  obtain ⟨changes, loss, hdealings, hnone⟩ := h
  exact ⟨changes, loss, hdealings, fun lost hlost => by cases hnone lost hlost⟩

/-- What is done at last, be it after a mishap. -/
theorem last {changes : List Change} (h : e.Keeps events mid result)
    (h' : Dealing mid more changes e') : e.Keeps (events ++ more) e' result := by
  obtain ⟨others, loss, hdealings, hloss⟩ := h
  exact ⟨others ++ changes, loss, hdealings.trans (.of_dealing h'), hloss⟩

theorem silent_last {changes : List Change} (h : e.Keeps events mid result)
    (h' : Dealing mid [] changes e') : e.Keeps events e' result := by
  simpa only [List.append_nil] using h.last h'

theorem founded (h : e.Keeps events e' result) (founded : e.Throughout Founded) :
    e'.Throughout Founded := by
  obtain ⟨changes, loss, hdealings, -⟩ := h
  exact hdealings.founded founded

theorem inside {a b : Engine} (h : a.Keeps events b result) {i : Nat} {slot : Slot} {nest : Nest}
    {t : Token} (running : e.status = .running) (stands : e.slots[i]? = some slot)
    (busy : slot.transition = .busy nest t a) :
    e.Keeps (events.filterMap (·.within slot.step)) (e.become i e.holdings (.busy nest t b)) result := by
  obtain ⟨changes, loss, hdealings, hloss⟩ := h
  refine ⟨_, loss.map (·.within slot.step), hdealings.inside running stands busy, fun lost hlost => ?_⟩
  obtain ⟨inner, hinner, rfl⟩ := Option.mem_map.1 hlost
  exact hloss inner hinner

end Engine.Keeps

/-- Whatever is taken note of, no token changes hands. -/
theorem Engine.acceptAll_keeps (e : Engine) (made : List (Nat × Token)) :
    e.Keeps (e.acceptAll made).2.2 (e.acceptAll made).1 (.ok ()) := by
  rcases e.acceptAll_cases made with
    ⟨hrunning, x, -, hold, hat, hterminal, hended, hreport⟩ | ⟨hsame, hsilent⟩
  · rw [hended, hreport]
    exact .of_dealing (.ended hrunning hat hterminal) _
  · rw [hsame, hsilent]
    exact .refl e _

structure Reaction.Works (r : Reaction) (e : Engine) (i : Nat) (slot : Slot) : Prop where
  running : e.status = .running
  stands : e.slots[i]? = some slot
  sees : r.Sees e slot
  founded : e.Throughout Engine.Founded

structure Reaction.Keeps (r : Reaction) (e : Engine) (i : Nat) (r' : Reaction) (tr : Transition)
    (result : Except Fault Unit) : Prop where
  follows : r'.Follows r
  told : ∃ events, r'.events = r.events ++ events ∧ e.Keeps events (e.become i r'.holdings tr) result

/-- An operation has done this with the tokens of a net, and if the net has ended with it, the
operation has ended well. -/
structure Engine.Concludes (e : Engine) (events : List Event) (e' : Engine)
    (result : Except Fault Unit) : Prop where
  kept : e.Keeps events e' result
  ended : ∀ event ∈ events, event.Final → result = .ok ()

theorem Engine.Concludes.refl (e : Engine) (result : Except Fault Unit) : e.Concludes [] e result :=
  ⟨.refl e result, List.forall_mem_nil _⟩

/-- A net that has ended has done so when it goes on with nothing. -/
theorem Engine.Concludes.after {e mid e' : Engine} {events more : List Event}
    {result : Except Fault Unit} (first : e.Keeps events mid (.ok ()))
    (h : mid.Concludes more e' result) (stays : mid.status = .completed → result = .ok ()) :
    e.Concludes (events ++ more) e' result := by
  refine ⟨first.trans h.kept, fun event he hfinal => ?_⟩
  rcases List.mem_append.1 he with hfirst | hlater
  · obtain ⟨changes, loss, hdealings, -⟩ := first
    rcases hdealings.ending with ⟨front, place, u, -, -, hstatus, -⟩ | hquiet
    · exact stays hstatus
    · exact absurd hfinal (hquiet event hfirst)
  · exact h.ended event hlater hfinal

def Drive.Keeps (drive : Drive) : Prop :=
  ∀ (e : Engine) (queue : List Engine.Notice) (s : Supply) (run : Run), e.Throughout Engine.Founded →
    drive e queue s = some run → e.Concludes run.events run.engine run.result ∧
      (e.status = .completed → run.result = .ok ())

namespace Reaction

variable {e : Engine} {i : Nat} {slot : Slot} {r mid r' : Reaction} {tr tr' : Transition}
  {result : Except Fault Unit} {input : Nat} {t : Token} {made : List (Nat × Token)}

theorem Keeps.trans (h : r.Keeps e i mid tr (.ok ()))
    (h' : mid.Keeps (e.become i mid.holdings tr) i r' tr' result) : r.Keeps e i r' tr' result := by
  obtain ⟨events, hevents, hkeeps⟩ := h.told
  obtain ⟨more, hmore, hkeeps'⟩ := h'.told
  rw [Engine.become_become] at hkeeps'
  refine ⟨h'.follows.trans h.follows, events ++ more, ?_, hkeeps.trans hkeeps'⟩
  rw [hmore, hevents, List.append_assoc]

theorem Keeps.because (h : r.Keeps e i r' tr (.ok ())) (result : Except Fault Unit) :
    r.Keeps e i r' tr result := by
  obtain ⟨events, hevents, hkeeps⟩ := h.told
  exact ⟨h.follows, events, hevents, hkeeps.because result⟩

namespace Works

theorem outputs_lt (h : r.Works e i slot) : ∀ p ∈ r.outputs, p < r.holdings.length := by
  rw [h.sees.outputs, h.sees.holdings]
  exact (h.founded.here.connectors (List.mem_of_getElem? h.stands)).2

theorem places (h : r.Works e i slot) (follows : r'.Follows r) :
    r'.holdings.map (·.place) = e.holdings.map (·.place) := by
  rw [follows.places, h.sees.holdings]

/-- The step goes on with its work. -/
theorem next (h : r.Works e i slot) (keeps : r.Keeps e i mid tr (.ok ())) :
    mid.Works (e.become i mid.holdings tr) i { slot with transition := tr } := by
  obtain ⟨events, -, hkeeps⟩ := keeps.told
  refine ⟨h.running, Engine.become_slot _ tr h.stands, ⟨?_, ?_, ?_, rfl⟩, hkeeps.founded h.founded⟩
  · exact keeps.follows.step.trans h.sees.step
  · exact keeps.follows.inputs.trans h.sees.inputs
  · exact keeps.follows.outputs.trans h.sees.outputs

/-- A step that has done nothing, however it ends. -/
theorem idles (h : r.Works e i slot) (htr : slot.transition = tr) (result : Except Fault Unit) :
    r.Keeps e i r tr result := by
  refine ⟨Follows.refl r, [], (List.append_nil _).symm, ?_⟩
  rw [h.sees.holdings, ← htr, Engine.become_self h.stands]
  exact .refl e result

/-- A step that makes a note and hands no token on, however it ends. -/
theorem notes (h : r.Works e i slot) (vacant : slot.transition.Vacant) (remains : tr.Vacant)
    (outline : tr.outline = slot.transition.outline) (ids : tr.ids = slot.transition.ids)
    (result : Except Fault Unit) : r.Keeps e i r tr result := by
  have hmoved : Dealing e [] [] (e.become i r.holdings tr) := by
    refine .moved h.running h.stands vacant remains outline (h.places (Follows.refl r))
      (List.forall_mem_nil _) (Engine.ids_kept h.stands ?_)
    rw [ids, h.sees.holdings]
  exact ⟨Follows.refl r, [], (List.append_nil _).symm, .of_dealing hmoved result⟩

/-- A step that reports something. -/
theorem reports (h : r.Works e i slot) (htr : slot.transition = tr) (vacant : tr.Vacant)
    {events : List Event} (about : ∀ event ∈ events, event.About slot.step) :
    r.Keeps e i { r with events := r.events ++ events } tr (.ok ()) := by
  have hfollows : Follows { r with events := r.events ++ events } r := ⟨rfl, rfl, rfl, rfl⟩
  have hmoved : Dealing e events [] (e.become i r.holdings tr) := by
    refine .moved h.running h.stands (htr ▸ vacant) vacant (by rw [htr])
      (h.places (Follows.refl r)) about
      (Engine.ids_kept h.stands ?_)
    rw [htr, h.sees.holdings]
  exact ⟨hfollows, events, rfl, .of_dealing hmoved _⟩

end Works

/-- The books of a firing balance. -/
theorem fire_ids {taken : List (Nat × Token)} (hf : r.fire taken made = (r', .ok true))
    (hout : ∀ p ∈ r.outputs, p < r.holdings.length) :
    Holding.ids r'.holdings + (taken.map (·.2.id) : List TokenId) =
      Holding.ids r.holdings + (made.map (·.2.id) : List TokenId) := by
  obtain ⟨-, -, -, removed, placed, hremoved, hplaced, -, hspread⟩ := fire_true hf hout
  have hids := congrArg (Multiset.map (·.2.id)) hspread
  simp only [Multiset.map_add, Multiset.map_coe] at hids
  have hmade : made.map (·.2.id) = placed.map (·.2.id) :=
    ids_of_forall₂ (hplaced.imp fun _ _ h => ⟨h.1, congrArg Token.id h.2⟩)
  rw [ids_of_forall₂ hremoved, hmade]
  exact hids

/-- A firing that takes one token fails before anything has happened. -/
theorem fire_single_error {f : Fault} (hf : r.fire [(input, t)] made = (r', .error f)) : r' = r := by
  rcases fire_error hf with ⟨hsame, -⟩ | ⟨hheld, hconsume⟩
  · exact hsame
  · have hok := consume_distinct hheld (List.nodup_singleton _)
    rw [hconsume] at hok
    cases hok

/-- A step that takes one token fires, or nothing happens. -/
theorem fire_single_cases (r : Reaction) (input : Nat) (t : Token) (made : List (Nat × Token)) :
    (∃ answer, r.fire [(input, t)] made = (r, answer)) ∨
      ∃ r', r.fire [(input, t)] made = (r', .ok true) := by
  rcases hfire : r.fire [(input, t)] made with ⟨r', f | fired⟩
  · obtain rfl := fire_single_error hfire
    exact .inl ⟨_, rfl⟩
  · cases fired with
    | false =>
      obtain ⟨rfl, -⟩ := fire_false hfire
      exact .inl ⟨_, rfl⟩
    | true => exact .inr ⟨r', rfl⟩

namespace Works

/-- A step that takes a token and hands it on, or keeps it. -/
theorem fires (h : r.Works e i slot) (vacant : slot.transition.Vacant) (remains : tr.Vacant)
    (outline : tr.outline = slot.transition.outline)
    (balance : tr.ids + (made.map (·.2.id) : List TokenId) = slot.transition.ids + {t.id})
    (hf : r.fire [(input, t)] made = (r', .ok true)) : r.Keeps e i r' tr (.ok ()) := by
  have hids : Holding.ids r'.holdings + {t.id} = _ := fire_ids hf h.outputs_lt
  have hkept : Holding.ids r'.holdings + tr.ids = Holding.ids e.holdings + slot.transition.ids := by
    refine add_right_cancel (b := ((made.map (·.2.id) : List TokenId) : Multiset TokenId)) ?_
    rw [← h.sees.holdings]
    calc
      _ = Holding.ids r'.holdings + {t.id} + slot.transition.ids := by
        rw [add_assoc, balance]
        abel
      _ = _ := by
        rw [hids]
        abel
  have hmoved : Dealing e [.fired (.ofStep slot.step)] [] (e.become i r'.holdings tr) :=
    .moved h.running h.stands vacant remains outline (h.places (fire_follows hf))
      (List.forall_mem_singleton.2 (.fired [])) (Engine.ids_kept h.stands hkept)
  rw [← h.sees.step] at hmoved
  exact ⟨fire_follows hf, _, fire_events hf, .of_dealing hmoved _⟩

/-- A step that hands a token on. -/
theorem forwards (h : r.Works e i slot) (vacant : slot.transition.Vacant) (remains : tr.Vacant)
    (outline : tr.outline = slot.transition.outline) (ids : tr.ids = slot.transition.ids)
    (output : Nat) :
    r.Keeps e i (r.forward input output t).1 tr (discard (r.forward input output t).2) := by
  unfold forward
  rcases fire_single_cases r input t [(output, t)] with ⟨answer, hfire⟩ | ⟨r', hfire⟩
  · rw [hfire]
    exact h.notes vacant remains outline ids _
  · rw [hfire]
    exact h.fires vacant remains outline (by rw [ids]; rfl) hfire

/-- A step that gives a token to each of its outputs in exchange. -/
theorem splits (h : r.Works e i slot) (kind : slot.transition = .split) {ids : List TokenId}
    (each : ids.length = r.outputs.length) :
    r.Keeps e i (r.fire [(input, t)] (t.siblings ids)).1 .split
      (discard (r.fire [(input, t)] (t.siblings ids)).2) := by
  rcases fire_single_cases r input t (t.siblings ids) with ⟨answer, hfire⟩ | ⟨r', hfire⟩
  · rw [hfire]
    exact h.idles kind _
  rw [hfire]
  obtain ⟨-, hfollows, hevents, removed, placed, hremoved, hplaced, -, hspread⟩ :=
    fire_true hfire h.outputs_lt
  obtain ⟨⟨p, u⟩, rfl, hinput, hid⟩ : ∃ x, removed = [x] ∧ r.inputs[input]? = some x.1 ∧
      x.2.id = t.id := by
    cases hremoved with
    | cons hfirst hrest =>
      cases hrest
      exact ⟨_, rfl, hfirst⟩
  have htargets : placed.map (·.1) = slot.outputs := by
    rw [← h.sees.outputs]
    exact places_of_range ((Token.siblings_range t ids).trans (by rw [each])) hplaced
  have hsiblings : ∀ x ∈ placed, x.2.parent = some t := by
    intro x hx
    obtain ⟨y, hy, -, hxy⟩ := exists_left_of_forall₂ hplaced hx
    exact hxy ▸ Token.siblings_parent t ids y hy
  have hdealt := Dealing.split h.running h.stands kind
    (List.mem_of_getElem? (h.sees.inputs ▸ hinput)) hid htargets hsiblings (h.places hfollows)
    (h.sees.holdings ▸ hspread)
  rw [← h.sees.step] at hdealt
  exact ⟨hfollows, _, hevents, .of_dealing hdealt _⟩

/-- A join that finds a sibling listed twice stops half way, and what it has taken is lost. -/
theorem jams (h : r.Works e i slot) {inputs j : Nat} {pending : List Generation} {g : Generation}
    (kind : slot.transition = .join inputs pending) (isPending : pending[j]? = some g)
    (complete : g.isComplete = true) (held : ∀ x ∈ g.siblings, r.holds x.1 x.2 = true) {f : Fault}
    (hconsume : r.consume g.siblings = (r', .error f)) :
    r.Keeps e i r' (.join inputs (pending.eraseIdx j)) (.error f) := by
  obtain ⟨place, id, rfl⟩ := consume_error (congrArg Prod.snd hconsume)
  obtain ⟨removed, hsome, hspread⟩ := consume_loses held hconsume
  have hids := congrArg (Multiset.map (·.2.id)) hspread
  rw [Multiset.map_add, Multiset.map_coe] at hids
  have hlost : (e.become i r'.holdings (.join inputs (pending.eraseIdx j))).marking.ids +
      (removed.map (·.2.id) : List TokenId) = e.marking.ids + 0 := by
    refine Engine.ids_become h.stands ?_
    rw [← h.sees.holdings, kind, add_zero, add_right_comm]
    exact congrArg (· + _) hids
  have hsome : ((removed.map (·.2.id) : List TokenId) : Multiset TokenId) ≠ 0 := by
    simpa using hsome
  have hsilent := (consume_spec r g.siblings).2.2.1
  rw [hconsume] at hsilent
  refine ⟨consume_follows hconsume, [], hsilent.trans (List.append_nil _).symm, ?_⟩
  exact .of_mishap (.jammed h.running h.stands kind isPending complete h.sees held hconsume hsome
    (hlost.trans (add_zero _)))

/-- A join that fires gives the parent of the siblings that it takes in exchange. -/
theorem merges (h : r.Works e i slot) {inputs j : Nat} {pending : List Generation} {g : Generation}
    (kind : slot.transition = .join inputs pending) (isPending : pending[j]? = some g)
    (complete : g.isComplete = true) (hfire : r.fire g.siblings [(0, g.parent)] = (r', .ok true)) :
    r.Keeps e i r' (.join inputs (pending.eraseIdx j)) (.ok ()) := by
  obtain ⟨-, hfollows, hevents, removed, placed, hremoved, hplaced, -, hspread⟩ :=
    fire_true hfire h.outputs_lt
  obtain ⟨q, rfl, htarget⟩ : ∃ q, placed = [(q, g.parent)] ∧ r.outputs[0]? = some q := by
    cases hplaced with
    | @cons _ x _ _ hfirst hrest =>
      cases hrest
      obtain ⟨q, u⟩ := x
      obtain ⟨hq, rfl⟩ := hfirst
      exact ⟨q, rfl, hq⟩
  have hdealt := Dealing.join h.running h.stands kind isPending complete
    (h.sees.inputs ▸ hremoved) (h.sees.outputs ▸ htarget) (h.places hfollows)
    (h.sees.holdings ▸ hspread)
  rw [← h.sees.step] at hdealt
  exact ⟨hfollows, _, hevents, .of_dealing hdealt _⟩

/-- A complete generation is made whole, or one of its siblings is gone, or one is listed twice. -/
theorem completes (h : r.Works e i slot) {inputs j : Nat} {pending : List Generation} {g : Generation}
    (kind : slot.transition = .join inputs pending) (isPending : pending[j]? = some g)
    (complete : g.isComplete = true) {pending' : List Generation}
    (hj : Join.complete (pending.eraseIdx j) g r = (r', pending', result)) :
    r.Keeps e i r' (.join inputs pending') result := by
  have hnoted : ∀ (pending' : List Generation) (result : Except Fault Unit),
      r.Keeps e i r (.join inputs pending') result := fun pending' result =>
    h.notes (by rw [kind]; trivial) (by trivial) (by rw [kind]; rfl) (by rw [kind]; rfl) result
  unfold Join.complete at hj
  split at hj
  · rename_i mid f hfire
    cases hj
    rcases fire_error hfire with ⟨rfl, -⟩ | ⟨hheld, hconsume⟩
    · exact hnoted _ _
    · exact h.jams kind isPending complete hheld hconsume
  · rename_i mid hfire
    cases hj
    exact h.merges kind isPending complete hfire
  · rename_i mid hfire
    cases hj
    obtain ⟨rfl, -⟩ := fire_false hfire
    exact hnoted _ _

/-- Whatever a join does about a token that has arrived on an input. -/
theorem joins (h : r.Works e i slot) {inputs : Nat} {pending : List Generation}
    (kind : slot.transition = .join inputs pending) {pending' : List Generation}
    (hj : Join.arrive pending r input t = (r', pending', result)) :
    r.Keeps e i r' (.join inputs pending') result := by
  have hnoted : ∀ pending', r.Keeps e i r (.join inputs pending') (.ok ()) := fun pending' =>
    h.notes (by rw [kind]; trivial) (by trivial) (by rw [kind]; rfl) (by rw [kind]; rfl) _
  have harrives := Join.arrives pending r input t
  generalize Join.arrive pending r input t = answer at hj harrives
  cases harrives with
  | aside | refused =>
    cases hj
    exact h.idles kind _
  | noted =>
    cases hj
    exact hnoted _
  | @completed parent placed j k g _ finds complete =>
    -- the token takes its seat first, so the generation that fires is one of the join's
    have hseated := hnoted (placed.set j { g with slots := g.slots.set k (some t) })
    have hlt := (List.getElem?_eq_some_iff.1 finds.isPlaced).1
    refine hseated.trans ((h.next hseated).completes rfl (List.getElem?_set_self hlt) complete ?_)
    rw [List.eraseIdx_set_eq]
    exact hj

end Works

end Reaction

/-- A task that takes a token says so. -/
theorem Reaction.Works.begins {e : Engine} {i : Nat} {slot : Slot} {r mid : Reaction} {input : Nat}
    {t : Token} {activity : String} {held : List Token} (h : r.Works e i slot)
    (kind : slot.transition = .task activity held) (hfire : r.fire [(input, t)] [] = (mid, .ok true)) :
    r.Keeps e i (announce mid activity t) (.task activity (held ++ [t])) (.ok ()) := by
  have hbalance : (Transition.task activity (held ++ [t])).ids + (([] : List TokenId) : Multiset TokenId) =
      slot.transition.ids + {t.id} := by
    rw [kind, Transition.ids, Transition.ids, Transition.taken, Transition.taken, List.map_append,
      ← Multiset.coe_add]
    exact add_zero _
  have htaken := h.fires (by rw [kind]; trivial) (by trivial) (by rw [kind]; rfl) hbalance hfire
  have hworks := h.next htaken
  refine htaken.trans (hworks.reports rfl (by trivial) (List.forall_mem_singleton.2 ?_))
  rw [(fire_follows hfire).step, h.sees.step]
  exact .started [] activity t

/-- A token that is put into a place is one more there. -/
theorem Reaction.put_ids {r : Reaction} {place : Nat} (t : Token) (h : place < r.holdings.length) :
    Holding.ids (r.put place t).holdings = Holding.ids r.holdings + {t.id} := by
  have hspread := congrArg (Multiset.map (·.2.id)) (spread_put t h)
  rw [Multiset.map_cons] at hspread
  rw [add_comm, Multiset.singleton_add]
  exact hspread

namespace Nest

variable {nest : Nest} {t : Token} {child : Engine} {e : Engine} {i : Nat} {slot : Slot}
  {r : Reaction} {s : Supply} {reacted : Reacted}

theorem relay_follows (r : Reaction) (events : List Event) : (relay r events).Follows r :=
  ⟨rfl, rfl, rfl, rfl⟩

/-- What is done in a nested net is done by its step. -/
theorem relays (hw : r.Works e i slot) (busy : slot.transition = .busy nest t child)
    {events told : List Event} {child' : Engine} {result : Except Fault Unit}
    (h : child.Keeps events child' result)
    (same : told.filterMap (·.within r.step) = events.filterMap (·.within r.step)) :
    r.Keeps e i (relay r told) (.busy nest t child') result := by
  refine ⟨relay_follows r told, _, rfl, ?_⟩
  change e.Keeps _ (e.become i r.holdings (.busy nest t child')) result
  rw [same, hw.sees.step, hw.sees.holdings]
  exact h.inside hw.running hw.stands busy

/-- The token of a nested net that has ended is put into an output. -/
theorem closes (hw : r.Works e i slot) (busy : slot.transition = .busy nest t child)
    (ended : child.status = .completed) {output place : Nat} (target : r.outputs[output]? = some place) :
    r.Keeps e i (r.put place t) (.idle nest) (.ok ()) := by
  have hlt := hw.outputs_lt place (List.mem_of_getElem? target)
  have hkept : Holding.ids (r.put place t).holdings + (Transition.idle nest).ids =
      Holding.ids e.holdings + slot.transition.ids := by
    rw [Reaction.put_ids t hlt, busy, hw.sees.holdings]
    exact add_zero _
  have hclosed : Dealing e [] _ (e.become i (r.put place t).holdings (.idle nest)) :=
    .closed hw.running hw.stands busy ended (hw.places (Reaction.put_follows r place t))
      (Engine.ids_kept hw.stands hkept)
  exact ⟨Reaction.put_follows r place t, [], (List.append_nil _).symm, .of_dealing hclosed _⟩

/-- The token of a nested net that has ended where the step has no output is lost. -/
theorem misdirects (hw : r.Works e i slot) (busy : slot.transition = .busy nest t child)
    {place : String} {u : Token} (completion : child.completion = some (place, u)) {output : Nat}
    (mapped : nest.outputs.output? place = some output) (missing : r.outputs[output]? = none) :
    r.Keeps e i r (.idle nest) (.error (.noSuchOutput r.step output r.outputs.length)) := by
  refine ⟨Reaction.Follows.refl r, [], (List.append_nil _).symm, ?_⟩
  rw [hw.sees.step, hw.sees.outputs, hw.sees.holdings]
  exact .of_mishap (.misdirected hw.running hw.stands busy completion mapped (hw.sees.outputs ▸ missing))

/-- What follows the end of the nested net and the beginning of the next one. -/
theorem settle_ended (hw : r.Works e i slot) (busy : slot.transition = .busy nest t child) {run : Run}
    {front : List Event} {place : String} {u : Token} (hkept : child.Keeps run.events run.engine (.ok ()))
    (reported : run.events = front ++ [.completed place u]) (before : ∀ event ∈ front, ¬ event.Final)
    (ended : run.engine.status = .completed) (completion : run.engine.completion = some (place, u))
    (hok : run.result = .ok ()) {next : Reaction → Token → Supply → Option Reacted}
    (hnext : ∀ {e slot r waiting s}, r.Works e i slot → slot.transition = .idle nest →
      next r waiting s = some reacted → r.Keeps e i reacted.reaction reacted.transition reacted.result)
    (h : nest.settle next t run r = some reacted) :
    r.Keeps e i reacted.reaction reacted.transition reacted.result := by
  have hfrom : front.filterMap (·.within r.step) = run.events.filterMap (·.within r.step) := by
    rw [reported, List.filterMap_append]
    exact (List.append_nil _).symm
  have hrelayed := relays hw busy hkept hfrom
  have hnow := hw.next hrelayed
  unfold settle at h
  rw [reported, absorb_front before] at h
  cases hmapped : nest.outputs.output? place with
  | none =>
    simp only [absorb, hmapped] at h
    obtain rfl := Option.some.inj h
    exact hrelayed.because _
  | some output =>
    cases hproduce : (relay r front).produce output t with
    | error f =>
      simp only [absorb, hmapped, hproduce] at h
      obtain rfl := Option.some.inj h
      obtain ⟨hmissing, rfl⟩ := Reaction.produce_error hproduce
      exact hrelayed.trans (misdirects hnow rfl completion hmapped hmissing)
    | ok r' =>
      obtain ⟨target, htarget, rfl⟩ := Reaction.produce_ok hproduce
      have hclosed := hrelayed.trans (closes hnow rfl ended htarget)
      simp only [absorb, hmapped, hproduce, hok] at h
      split at h
      · exact hclosed.trans (hnext (hw.next hclosed) rfl h)
      · obtain rfl := Option.some.inj h
        exact hclosed

/-- What follows an operation on the nested net, and on the next one that begins. -/
theorem settle_keeps (hw : r.Works e i slot) (busy : slot.transition = .busy nest t child) {run : Run}
    (hrun : child.Concludes run.events run.engine run.result) {next : Reaction → Token → Supply → Option Reacted}
    (hnext : ∀ {e slot r waiting s}, r.Works e i slot → slot.transition = .idle nest →
      next r waiting s = some reacted → r.Keeps e i reacted.reaction reacted.transition reacted.result)
    (h : nest.settle next t run r = some reacted) :
    r.Keeps e i reacted.reaction reacted.transition reacted.result := by
  obtain ⟨changes, loss, hdealings, -⟩ := hrun.kept
  rcases hdealings.ending with ⟨front, place, u, hevents, hfront, hstatus, hcompletion⟩ | hquiet
  · have hok := hrun.ended (.completed place u) (by rw [hevents]; simp) trivial
    have hkept := hrun.kept
    rw [hok] at hkept
    exact settle_ended hw busy hkept hevents hfront hstatus hcompletion hok hnext h
  · have hrelayed := relays hw busy hrun.kept rfl
    unfold settle at h
    rw [absorb_quiet hquiet] at h
    dsimp only at h
    split at h
    · rename_i f hresult
      obtain rfl := Option.some.inj h
      exact hresult ▸ hrelayed
    · rename_i hresult
      rw [hresult] at hrelayed
      split at h
      · simp only [Bool.false_eq_true, if_false] at h
        obtain rfl := Option.some.inj h
        exact hrelayed
      · obtain rfl := Option.some.inj h
        exact hrelayed

/-- Whatever comes of the nested plan, for a token and for those that wait. -/
theorem launch_keeps {drive : Drive} (hd : drive.Keeps) {fuel : Nat} (hw : r.Works e i slot)
    (idle : slot.transition = .idle nest) (h : nest.launch drive fuel r t s = some reacted) :
    r.Keeps e i reacted.reaction reacted.transition reacted.result := by
  induction fuel generalizing e slot r t s with
  | zero => cases h
  | succ fuel ih =>
    unfold launch at h
    split at h
    · rename_i mid f hfire
      obtain rfl := Option.some.inj h
      obtain rfl := Reaction.fire_single_error hfire
      exact hw.idles idle _
    · rename_i mid hfire
      obtain rfl := Option.some.inj h
      obtain ⟨rfl, -⟩ := Reaction.fire_false hfire
      exact hw.idles idle _
    rename_i mid hfire
    have hfollows := Reaction.fire_follows hfire
    have hevents := Reaction.fire_events hfire
    have hids : Holding.ids mid.holdings + {t.id} = Holding.ids e.holdings + 0 :=
      hw.sees.holdings ▸ Reaction.fire_ids hfire hw.outputs_lt
    rw [hw.sees.step] at hevents
    split at h
    · rename_i f hfails
      obtain rfl := Option.some.inj h
      have hlost : (e.become i mid.holdings (.idle nest)).marking.ids + {t.id} = e.marking.ids + 0 := by
        refine Engine.ids_become hw.stands ?_
        rw [idle, add_right_comm, hids, add_right_comm]
      exact ⟨hfollows, _, hevents, .of_mishap (.unbuilt hw.running hw.stands idle hfails
        (hw.places hfollows) (hlost.trans (add_zero _)))⟩
    rename_i child hbuild
    have hb := Engine.built_of_build hbuild
    dsimp only at h
    rw [Engine.enter_created hb.status] at h
    dsimp only at h
    split at h
    · cases h
    rename_i run hdrive
    generalize (startToken t s).1 = start at h hdrive
    have hkept : Holding.ids mid.holdings + (Transition.busy nest t (child.entered start)).ids =
        Holding.ids e.holdings + slot.transition.ids := by
      rw [idle]
      exact hids
    have hlaunched : r.Keeps e i mid (.busy nest t (child.entered start)) (.ok ()) :=
      ⟨hfollows, _, hevents, .of_dealing (.launched hw.running hw.stands idle hbuild (hw.places hfollows)
        (Engine.ids_kept hw.stands hkept)) _⟩
    have haccepted := (child.entered start).acceptAll_keeps [(child.startPlace, start)]
    obtain ⟨hrun, hover⟩ := hd _ _ _ run (haccepted.founded (Engine.founded_entered (Engine.founded_of_build hbuild) start)) hdrive
    exact hlaunched.trans (settle_keeps (hw.next hlaunched) rfl (.after haccepted hrun hover)
      (fun hw idle h => ih hw idle h) h)

end Nest

/-- Whatever a step makes of a notice. -/
theorem Transition.arrive_keeps {drive : Drive} (hd : drive.Keeps) {fuel : Nat} {e : Engine} {i : Nat}
    {slot : Slot} {r : Reaction} {input : Nat} {t : Token} {s : Supply} {reacted : Reacted}
    (hw : r.Works e i slot)
    (h : slot.transition.arrive drive fuel r input t s = some reacted) :
    r.Keeps e i reacted.reaction reacted.transition reacted.result := by
  have hself : r.Keeps e i r slot.transition (.ok ()) := hw.idles rfl _
  generalize htr : slot.transition = tr at h hself
  cases tr with
  | pass output =>
    simp only [arrive] at h
    split at h
    · obtain rfl := Option.some.inj h
      exact hw.forwards (by rw [htr]; trivial) (by trivial) (by rw [htr]) (by rw [htr]) output
    · obtain rfl := Option.some.inj h
      exact hself
  | split =>
    simp only [arrive] at h
    split at h
    · obtain rfl := Option.some.inj h
      exact hw.splits htr (by simp [Supply.take])
    · obtain rfl := Option.some.inj h
      exact hself
  | join inputs pending =>
    obtain rfl := Option.some.inj h
    exact hw.joins htr rfl
  | task activity held =>
    simp only [arrive] at h
    split at h
    · cases hfire : r.fire [(input, t)] [] with
      | mk mid answer =>
        rw [hfire] at h
        cases answer with
        | error f =>
          obtain rfl := Option.some.inj h
          obtain rfl := Reaction.fire_single_error hfire
          exact hw.idles htr _
        | ok fired =>
          cases fired with
          | false =>
            obtain rfl := Option.some.inj h
            obtain ⟨rfl, -⟩ := Reaction.fire_false hfire
            exact hself
          | true =>
            obtain rfl := Option.some.inj h
            exact hw.begins htr hfire
    · obtain rfl := Option.some.inj h
      exact hself
  | routed rule seen =>
    simp only [arrive] at h
    -- A router has seen the token, whatever comes of it.
    have hnoted : ∀ result, r.Keeps e i r (.routed rule (seen ++ [t])) result := fun result =>
      hw.notes (by rw [htr]; trivial) (by trivial) (by rw [htr]; rfl) (by rw [htr]; rfl) result
    split at h
    · split at h
      · obtain rfl := Option.some.inj h
        exact hnoted _
      split at h
      · obtain rfl := Option.some.inj h
        exact hw.forwards (by rw [htr]; trivial) (by trivial) (by rw [htr]; rfl) (by rw [htr]; rfl) _
      · obtain rfl := Option.some.inj h
        exact hnoted _
    · obtain rfl := Option.some.inj h
      exact hself
  | idle nest =>
    simp only [arrive] at h
    split at h
    · exact nest.launch_keeps hd hw htr h
    · obtain rfl := Option.some.inj h
      exact hself
  | busy nest u child =>
    obtain rfl := Option.some.inj h
    exact hself

end RecipeNet
