import RecipeNet.Proofs.Net.Marking
import RecipeNet.Proofs.Reachable
import RecipeNet.Proofs.Snapshot.RoundTrip

/-!
A net plays the token game of its plan. Whatever a call does, and however it
ends, the tokens in places and with steps afterwards come about by moves of the
net, and the firings that are reported are the firings of these moves.
-/

namespace RecipeNet

open Marking (ofPlaces ofSteps ofPlaces_cons ofPlaces_add)

def Scene.seen (sc : Scene) : Set TokenId := {id | ∃ path, ∃ t ∈ sc.lore path, t.id = id}

def Scene.position (sc : Scene) : Position := ⟨sc.engine.marking, sc.seen⟩

/-- A generation with a seat for each input, no token on two of them, and none
that is not a sibling. -/
def Siblings (inputs : Nat) (g : Generation) : Prop := (g.Full inputs ∧ g.Distinct) ∧ g.Kin

theorem siblings_lasting : Generation.Lasting Siblings :=
  (Generation.full_lasting.and Generation.distinct_lasting).and Generation.kin_lasting

structure Scene.Straight (fitter : Fitter) (last : Supply) (sc : Scene) : Prop where
  sound : sc.Sound fitter
  clear : sc.Clear last
  orderly : sc.engine.Orderly Siblings

namespace Act

variable {fitter : Fitter} {last : Supply} {sc sc' : Scene} {events : List Event}

theorem straight (hf : fitter.Regular) (h : Act sc events sc') (hle : sc'.supply.used ≤ last.used)
    (hsc : sc.Straight fitter last) : sc'.Straight fitter last :=
  ⟨⟨h.kept hf hsc.sound.kept, h.lore_closed hsc.sound.closed⟩, h.clear hle hsc.clear,
    h.orderly siblings_lasting hf hsc.sound.fits hsc.orderly⟩

theorem seen_subset (h : Act sc events sc') : sc.seen ⊆ sc'.seen :=
  fun _ ⟨path, t, ht, hid⟩ => ⟨path, t, h.lore_le path ht, hid⟩

/-- Tokens of the net itself are told apart by their identities. -/
theorem eq_of_id (hsc : sc.Straight fitter last) {t u : Token} (ht : t ∈ sc.lore)
    (hu : u ∈ sc.lore) (hid : t.id = u.id) : t = u :=
  hsc.clear.coherent [] t ht u hu hid

/-- A firing takes the very tokens that it is about. -/
theorem removed_eq (hsc : sc.Straight fitter last) {inputs : List Nat}
    {taken removed : List (Nat × Token)} {rest : Multiset (Nat × Token)}
    (known : ∀ x ∈ taken, x.2 ∈ sc.lore)
    (hold : spread Holding.tokens sc.engine.holdings = rest + (removed : Multiset _))
    (hremoved : List.Forall₂ (fun e u => inputs[e.1]? = some u.1 ∧ u.2.id = e.2.id) taken
      removed) : List.Forall₂ (fun e u => inputs[e.1]? = some u.1 ∧ u.2 = e.2) taken removed := by
  have hmem : ∀ x ∈ removed, x.2 ∈ sc.lore := by
    intro x hx
    refine hsc.sound.informed.spread (x := x) ?_
    rw [hold]
    exact Multiset.mem_add.2 (.inr (Multiset.mem_coe.2 hx))
  clear hold
  induction hremoved with
  | nil => exact .nil
  | @cons e u taken removed hone _ ih =>
    obtain ⟨hke, hktaken⟩ := List.forall_mem_cons.1 known
    obtain ⟨hmu, hmremoved⟩ := List.forall_mem_cons.1 hmem
    exact .cons ⟨hone.1, eq_of_id hsc hmu hke hone.2⟩ (ih hktaken hmremoved)

/-- An act that leaves all tokens where they are, and reports no firing. -/
theorem still (h : Act sc events sc') (hmarking : sc'.engine.marking = sc.engine.marking)
    (hown : events.filterMap Event.own? = []) {slots : List Slot} :
    Moves slots (events.filterMap Event.own?) sc.position sc'.position := by
  rw [hown, Scene.position, Scene.position, hmarking]
  exact .of_learn h.seen_subset

theorem snd_of_forall₂ {connectors : List Nat} {entries found : List (Nat × Token)}
    (h : List.Forall₂ (fun e u => connectors[e.1]? = some u.1 ∧ u.2 = e.2) entries found) :
    found.map (·.2) = entries.map (·.2) := by
  induction h with
  | nil => rfl
  | cons hone _ ih => rw [List.map_cons, List.map_cons, hone.2, ih]

theorem single_found {connectors : List Nat} {k : Nat} {t : Token} {found : List (Nat × Token)}
    (h : List.Forall₂ (fun e u => connectors[e.1]? = some u.1 ∧ u.2 = e.2) [(k, t)] found) :
    ∃ p, connectors[k]? = some p ∧ found = [(p, t)] := by
  obtain ⟨⟨p, u⟩, _, ⟨hp, rfl⟩, hnil, rfl⟩ := List.forall₂_cons_left_iff.1 h
  cases hnil
  exact ⟨p, hp, rfl⟩

theorem ofPlaces_single (p : Nat) (t : Token) (rest : Marking) :
    ofPlaces (([(p, t)] : List (Nat × Token)) : Multiset _) + rest = (.place p, t) ::ₘ rest :=
  Multiset.singleton_add _ _

theorem single_connector {connectors : List Nat} {k p : Nat} (hlength : connectors.length = 1)
    (hk : connectors[k]? = some p) : connectors = [p] := by
  obtain ⟨q, rfl⟩ := List.length_eq_one_iff.1 hlength
  obtain ⟨hlt, hat⟩ := List.getElem?_eq_some_iff.1 hk
  obtain rfl : k = 0 := Nat.lt_one_iff.1 hlt
  exact congrArg ([·]) hat

/-- What a token is divided into are its siblings, each with an identity of its own that
was never seen before. -/
theorem divided_fresh (hsc : sc.Straight fitter last) {t : Token} {n : Nat} {connectors : List Nat}
    {placed : List (Nat × Token)} (hle : sc.supply.used + n ≤ last.used)
    (hplaced : List.Forall₂ (fun e u => connectors[e.1]? = some u.1 ∧ u.2 = e.2)
      (t.siblings (sc.supply.take n).1) placed) :
    (∀ x ∈ placed, x.2.parent = some t) ∧ (placed.map (·.2.id)).Nodup ∧
      ∀ x ∈ placed, x.2.id ∉ sc.seen := by
  have htokens := snd_of_forall₂ hplaced
  have hdrawn : placed.map (·.2.id) =
      (List.range n).map fun k => sc.supply.draw (sc.supply.used + k) := by
    have hmap := congrArg (List.map (·.id)) htokens
    rw [List.map_map, List.map_map] at hmap
    exact hmap.trans (t.siblings_ids _)
  refine ⟨fun x hx => ?_, ?_, ?_⟩
  · have hmade : x.2 ∈ (t.siblings (sc.supply.take n).1).map (·.2) :=
      htokens ▸ List.mem_map_of_mem hx
    obtain ⟨y, hy, heq⟩ := List.mem_map.1 hmade
    exact heq ▸ Token.siblings_parent t _ y hy
  · rw [hdrawn]
    exact hsc.clear.fresh.nodup hle
  · rintro x hx ⟨path, u, hu, hid⟩
    have hmem : x.2.id ∈ placed.map (·.2.id) := List.mem_map_of_mem hx
    rw [hdrawn] at hmem
    obtain ⟨k, hk, heq⟩ := List.mem_map.1 hmem
    have hlt : sc.supply.used + k < last.used := by
      have hcount := List.mem_range.1 hk
      omega
    exact (hsc.clear.fresh _ (Nat.le_add_right _ _) hlt).1 u ⟨path, hu⟩ (hid.trans heq.symm)

/-- What a join takes are siblings with identities of their own. -/
theorem joined_kin (hsc : sc.Straight fitter last) {slot : Slot} {inputs : Nat} {connectors : List Nat}
    {pending : List Generation} {g : Generation} {taken : List (Nat × Token)}
    (hmem : slot ∈ sc.engine.slots) (htr : slot.transition = .join inputs pending)
    (isPending : g ∈ pending) (known : ∀ x ∈ g.siblings, x.2 ∈ sc.lore)
    (htook : List.Forall₂ (fun e u => connectors[e.1]? = some u.1 ∧ u.2 = e.2) g.siblings taken) :
    (∀ x ∈ taken, x.2.parent = some g.parent) ∧ (taken.map (·.2.id)).Nodup := by
  obtain ⟨⟨-, hdistinct⟩, hkin⟩ := hsc.orderly slot hmem _ _ htr g isPending
  have htokens := snd_of_forall₂ htook
  constructor
  · intro x hx
    have hsibling : x.2 ∈ g.siblings.map (·.2) := htokens ▸ List.mem_map_of_mem hx
    obtain ⟨y, hy, hsame⟩ := List.mem_map.1 hsibling
    have hknown : x.2 ∈ sc.lore := hsame ▸ known y hy
    rw [Generation.siblings_tokens] at hsibling
    obtain ⟨parent, hparent, hid⟩ := hkin x.2 hsibling
    have hgparent : g.parent ∈ sc.lore := by
      refine hsc.sound.informed.steps slot hmem g.parent ?_
      rw [htr]
      exact List.mem_flatMap.2 ⟨g, isPending, List.mem_cons_self⟩
    have hclosed : parent ∈ sc.lore := hsc.sound.closed [] x.2 hknown parent hparent
    rw [hparent, eq_of_id hsc hclosed hgparent hid]
  · have hmap := congrArg (List.map (·.id)) htokens
    rw [List.map_map, List.map_map] at hmap
    show (taken.map ((·.id) ∘ (·.2))).Nodup
    rw [hmap]
    exact (Generation.siblings_ids g).symm ▸ hdistinct

/-- The tokens that a firing takes leave the places behind the inputs, those that it makes come
into the places behind the outputs, and whatever else is in places or with steps remains. -/
theorem fired_marking (hf : fitter.Regular) (hsc : sc.Straight fitter last) {i : Nat} {slot : Slot}
    {taken made : List (Nat × Token)} {r r' : Reaction} (stands : sc.engine.slots[i]? = some slot)
    (known : ∀ x ∈ taken, x.2 ∈ sc.lore) (sees : r.Sees sc.engine slot)
    (fire : r.fire taken made = (r', .ok true)) :
    ∃ (removed placed : List (Nat × Token)) (remains : Marking),
      List.Forall₂ (fun e u => slot.inputs[e.1]? = some u.1 ∧ u.2 = e.2) taken removed ∧
      List.Forall₂ (fun e u => slot.outputs[e.1]? = some u.1 ∧ u.2 = e.2) made placed ∧
      sc.engine.marking = ofPlaces removed + remains ∧
      ofPlaces (spread Holding.tokens r'.holdings) +
        ofSteps (spread (·.transition.taken) sc.engine.slots) = ofPlaces placed + remains := by
  have houts : ∀ p ∈ r.outputs, p < r.holdings.length := by
    rw [sees.outputs, sees.holdings]
    exact (hsc.sound.fits.slot hf (List.mem_of_getElem? stands)).outputs
  obtain ⟨-, -, -, removed, placed, hremoved, hplaced, -, rest, hold, hnew⟩ :=
    Reaction.fire_taken fire houts
  rw [sees.holdings] at hold
  rw [sees.inputs] at hremoved
  rw [sees.outputs] at hplaced
  refine ⟨removed, placed, ofPlaces rest + ofSteps (spread (·.transition.taken) sc.engine.slots),
    removed_eq hsc known hold hremoved, hplaced, ?_, ?_⟩
  · unfold Engine.marking
    rw [hold, ofPlaces_add, add_comm (ofPlaces rest), add_assoc]
  · rw [hnew, ofPlaces_add, add_comm (ofPlaces rest), add_assoc]

/-- The identities of what a token is divided into are known from then on. -/
theorem divided_seen {e : Engine} {s : Supply} {lore : Lore} {step : String} {t : Token}
    {ids : List TokenId} {connectors : List Nat} {placed : List (Nat × Token)}
    (hplaced : List.Forall₂ (fun e u => connectors[e.1]? = some u.1 ∧ u.2 = e.2)
      (t.siblings ids) placed)
    (hlore : sc.lore.grow step ((t.siblings ids).map (·.2)) [] = lore)
    (hseen : sc.seen ⊆ Scene.seen ⟨e, s, lore⟩) :
    sc.seen ∪ {id | ∃ x ∈ placed, x.2.id = id} ⊆ Scene.seen ⟨e, s, lore⟩ := by
  rintro id (hid | ⟨x, hx, rfl⟩)
  · exact hseen hid
  · have hmade : x.2 ∈ (t.siblings ids).map (·.2) :=
      snd_of_forall₂ hplaced ▸ List.mem_map_of_mem hx
    exact ⟨[], x.2, hlore ▸ Lore.mem_grow.2 (.inr hmade), rfl⟩

/-- A token that a step takes in is one move. -/
theorem begun_moves {i p : Nat} {slot : Slot} {hs : List Holding} {tr : Transition} {t : Token}
    {remains : Marking} {s : Supply} {lore : Lore} (stands : sc.engine.slots[i]? = some slot)
    (kind : (∃ activity, slot.transition.outline = .task activity []) ∨
      ∃ nest, slot.transition.outline = .idle nest)
    (input : slot.inputs = [p]) (takes : tr.taken.Perm (t :: slot.transition.taken))
    (before : sc.engine.marking = (.place p, t) ::ₘ remains)
    (after : ofPlaces (spread Holding.tokens hs) +
      ofSteps (spread (·.transition.taken) sc.engine.slots) = remains)
    (hseen : sc.seen ⊆ Scene.seen ⟨sc.engine.become i hs tr, s, lore⟩) :
    Moves sc.engine.outline.slots [slot.step] sc.position
      (Scene.position ⟨sc.engine.become i hs tr, s, lore⟩) := by
  have hkind : slot.outline.transition.outline = slot.transition.outline :=
    slot.transition.outline_outline
  unfold Scene.position
  rw [before, Engine.marking_gain stands hs takes, after]
  exact .of_move (.start (Engine.outline_at stands) (hkind ▸ kind) input) hseen

/-- A firing is one move, named by its step. -/
theorem fired_moves (hf : fitter.Regular) (hsc : sc.Straight fitter last) {i : Nat} {slot : Slot}
    {firing : Firing} {r r' : Reaction} {lore' : Lore} (stands : sc.engine.slots[i]? = some slot)
    (fires : slot.transition.Fires slot.step slot.outputs.length sc.supply firing)
    (known : ∀ x ∈ firing.taken, x.2 ∈ sc.lore) (sees : r.Sees sc.engine slot)
    (fire : r.fire firing.taken firing.made = (r', .ok true))
    (hle : firing.supply.used ≤ last.used)
    (hlore : sc.lore.grow slot.step firing.fresh firing.inner = lore') :
    Moves sc.engine.outline.slots [slot.step] sc.position
      (Scene.position ⟨sc.engine.become i r'.holdings firing.after, firing.supply, lore'⟩) := by
  have hmem := List.mem_of_getElem? stands
  have hsuits := (hsc.sound.fits.slot hf hmem).suits
  obtain ⟨removed, placed, remains, htook, hplaced, hbefore, hafter⟩ :=
    fired_marking hf hsc stands known sees fire
  have hat := Engine.outline_at stands
  have hkind : slot.outline.transition.outline = slot.transition.outline :=
    slot.transition.outline_outline
  have hseen : sc.seen ⊆ Scene.seen ⟨sc.engine.become i r'.holdings firing.after,
      firing.supply, lore'⟩ := by
    rintro id ⟨path, t, ht, hid⟩
    exact ⟨path, t, hlore ▸ Lore.le_grow _ _ _ _ path ht, hid⟩
  -- Each kind of firing is the move of its name.
  generalize htr : slot.transition = tr at fires hsuits hkind
  cases fires with
  | pass output input t =>
    obtain ⟨p, hp, rfl⟩ := single_found htook
    obtain ⟨q, hq, rfl⟩ := single_found hplaced
    unfold Scene.position
    rw [hbefore, Engine.marking_same stands r'.holdings (by rw [htr]), hafter, ofPlaces_single,
      ofPlaces_single]
    exact .of_move (.pass hat hkind (single_connector hsuits.1 hp) hq) hseen
  | routed rule seen input output t =>
    obtain ⟨p, hp, rfl⟩ := single_found htook
    obtain ⟨q, hq, rfl⟩ := single_found hplaced
    unfold Scene.position
    rw [hbefore, Engine.marking_same stands r'.holdings (by rw [htr]; rfl), hafter,
      ofPlaces_single, ofPlaces_single]
    exact .of_move (.routed hat ⟨rule, hkind⟩ (List.mem_of_getElem? hp)
      (List.mem_of_getElem? hq)) hseen
  | split input t =>
    obtain ⟨p, hp, rfl⟩ := single_found htook
    have hids : (sc.supply.take slot.outputs.length).1.length = slot.outputs.length := by
      simp [Supply.take]
    have hrange := (Token.siblings_range t (sc.supply.take slot.outputs.length).1).trans
      (congrArg List.range hids)
    obtain ⟨hsiblings, hdistinct, hunseen⟩ := divided_fresh hsc hle hplaced
    unfold Scene.position
    rw [hbefore, Engine.marking_same stands r'.holdings (by rw [htr]), hafter, ofPlaces_single]
    exact .of_move (.split hat hkind (single_connector hsuits hp) (places_of_range hrange hplaced)
      hsiblings hdistinct hunseen) (divided_seen hplaced hlore hseen)
  | join inputs pending j g isPending complete =>
    obtain ⟨q, hq, rfl⟩ := single_found hplaced
    have hpending := List.mem_of_getElem? isPending
    obtain ⟨⟨hfull, -⟩, -⟩ := hsc.orderly slot hmem _ _ htr g hpending
    have hlength : g.slots.length = slot.inputs.length := hfull.trans hsuits.1
    have hrange := (Generation.siblings_complete complete).trans (congrArg List.range hlength)
    obtain ⟨hsiblings, hdistinct⟩ := joined_kin hsc hmem htr hpending known htook
    unfold Scene.position
    rw [hbefore, Engine.marking_same stands r'.holdings (by rw [htr]; rfl), hafter, ofPlaces_single]
    exact .of_move (.join hat ⟨inputs, hkind⟩ (places_of_range hrange htook) hsiblings hdistinct
      (single_connector hsuits.2.2 hq)) hseen
  | begin activity held input t =>
    obtain ⟨p, hp, rfl⟩ := single_found htook
    cases hplaced
    refine begun_moves stands (.inl ⟨activity, by rw [htr]; rfl⟩) (single_connector hsuits hp) ?_
      (hbefore.trans (ofPlaces_single p t remains)) (hafter.trans (zero_add _)) hseen
    rw [htr]
    exact List.perm_append_singleton t held
  | launch nest child t built =>
    obtain ⟨p, hp, rfl⟩ := single_found htook
    cases hplaced
    refine begun_moves stands (.inr ⟨nest, by rw [htr]; rfl⟩) (single_connector hsuits.1 hp) ?_
      (hbefore.trans (ofPlaces_single p t remains)) (hafter.trans (zero_add _)) hseen
    rw [htr]
    exact .refl _

/-- A token that a step gives back is one move. -/
theorem finished_moves (hf : fitter.Regular) (hsc : sc.Straight fitter last) {i output place : Nat}
    {slot : Slot} {tr : Transition} {t : Token} (stands : sc.engine.slots[i]? = some slot)
    (target : slot.outputs[output]? = some place)
    (kind : (∃ activity, slot.transition.outline = .task activity []) ∨
      ∃ nest, slot.transition.outline = .idle nest)
    (gives : slot.transition.taken.Perm (t :: tr.taken)) :
    Moves sc.engine.outline.slots [] sc.position (Scene.position ⟨sc.engine.become i
      (sc.engine.holdings.modify place (·.add t)) tr, sc.supply, sc.lore⟩) := by
  have hapt := hsc.sound.fits.slot hf (List.mem_of_getElem? stands)
  have hlt := hapt.outputs place (List.mem_of_getElem? target)
  have hput := spread_add t hlt
  obtain ⟨held, hsteps, hafter⟩ :=
    Engine.marking_loss stands (sc.engine.holdings.modify place (·.add t)) gives
  have hbefore : sc.engine.marking =
      (.step i, t) ::ₘ (ofPlaces (spread Holding.tokens sc.engine.holdings) + held) := by
    unfold Engine.marking
    rw [hsteps, Multiset.add_cons]
  have hplaces : ofPlaces (spread Holding.tokens (sc.engine.holdings.modify place (·.add t))) =
      (.place place, t) ::ₘ ofPlaces (spread Holding.tokens sc.engine.holdings) := by
    rw [← ofPlaces_cons]
    exact congrArg ofPlaces hput
  unfold Scene.position
  rw [hbefore, hafter, hplaces, Multiset.cons_add]
  have hkind : slot.outline.transition.outline = slot.transition.outline :=
    slot.transition.outline_outline
  exact .of_move (.finish (Engine.outline_at stands) (hkind ▸ kind) (List.mem_of_getElem? target))
    subset_rfl

/-- Each act makes one move or none. -/
theorem moves (hf : fitter.Regular) (h : Act sc events sc') (hle : sc'.supply.used ≤ last.used)
    (hsc : sc.Straight fitter last) :
    Moves sc.engine.outline.slots (events.filterMap Event.own?) sc.position sc'.position := by
  have hact := h
  cases h with
  | woken => exact hact.still (Engine.marking_activate sc.engine .running) rfl
  | @fired _ i slot firing r r' running stands fires known sees fire =>
    have hnotes : (Event.fired (.ofStep slot.step) :: firing.notes).filterMap Event.own? =
        [slot.step] := by
      generalize slot.transition = tr at fires
      cases fires <;> rfl
    rw [hnotes]
    exact fired_moves hf hsc stands fires known sees fire hle rfl
  | seated running stands join =>
    exact hact.still (Engine.marking_same stands _ (by rw [join]; rfl)) rfl
  | refreshed running stands join =>
    exact hact.still (Engine.marking_same stands _ (by rw [join]; rfl)) rfl
  | @botched _ _ slot inputs pending g _ _ _ _ running stands join isPending consume held =>
    -- Nobody sits in a generation twice, so a firing cannot stop half way.
    have hseats := hsc.orderly slot (List.mem_of_getElem? stands) _ _ join g
      (List.mem_of_getElem? isPending)
    have hok := hseats.1.2.consume held
    rw [consume] at hok
    cases hok
  | refused => exact hact.still (Engine.marking_halt _ _) rfl
  | balked running stands routed =>
    refine hact.still ((Engine.marking_halt _ _).trans ?_) rfl
    exact Engine.marking_same stands _ (by rw [routed]; rfl)
  | @released _ i slot activity held t j output place running stands task isHeld target =>
    refine finished_moves hf hsc stands target (.inl ⟨activity, by rw [task]; rfl⟩) ?_
    obtain ⟨hlt, hat⟩ := List.getElem?_eq_some_iff.1 isHeld
    rw [task, ← hat]
    exact (List.getElem_cons_eraseIdx_perm hlt).symm
  | @closed _ i slot nest t u child terminal output place running stands busy ended completion
      mapped target =>
    refine finished_moves hf hsc stands target (.inr ⟨nest, by rw [busy]; rfl⟩) ?_
    rw [busy]
    exact .refl _
  | announced =>
    refine hact.still rfl (List.filterMap_eq_nil_iff.2 fun e he => ?_)
    obtain ⟨t, -, rfl⟩ := List.mem_map.1 he
    rfl
  | ended => exact hact.still rfl rfl
  | inside running stands busy act =>
    refine hact.still (Engine.marking_same stands _ (by rw [busy]; rfl)) (own_within act.addressed)
  | sunk => exact hact.still (Engine.marking_halt _ _) rfl

end Act

theorem Course.straight {fitter : Fitter} (hf : fitter.Regular) {last : Supply} {sc sc' : Scene}
    {events : List Event} (h : Course sc events sc') (hle : sc'.supply.used ≤ last.used)
    (hsc : sc.Straight fitter last) : sc'.Straight fitter last := by
  induction h with
  | nil => exact hsc
  | cons act rest ih => exact ih hle (act.straight hf (rest.used_le.trans hle) hsc)

theorem Course.moves {fitter : Fitter} (hf : fitter.Regular) {last : Supply} {sc sc' : Scene}
    {events : List Event} (h : Course sc events sc') (hle : sc'.supply.used ≤ last.used)
    (hsc : sc.Straight fitter last) :
    Moves sc.engine.outline.slots (events.filterMap Event.own?) sc.position sc'.position := by
  induction h with
  | nil => exact .nil _
  | cons act rest ih =>
    have hmid := rest.used_le.trans hle
    have hmoves := ih hle (act.straight hf hmid hsc)
    rw [act.outline] at hmoves
    rw [List.filterMap_append]
    exact (act.moves hf hmid hsc).trans hmoves

/-- The tokens that a token comes from are told apart by their identities. -/
def Token.Proper (t : Token) : Prop :=
  ∀ u ∈ t :: t.ancestry, ∀ v ∈ t :: t.ancestry, u.id = v.id → u = v

/-- The joins of a snapshot list siblings of their parents, and none of them twice. -/
def Snapshot.Apart (snapshot : Snapshot) : Prop :=
  ∀ step records, ⟨step, .join records⟩ ∈ snapshot.transitions → ∀ r ∈ records,
    (r.slots.filterMap id).Nodup ∧ ∀ sibling ∈ r.slots.filterMap id, ∃ payload,
      TokenTable.find? snapshot.tokens sibling = some ⟨sibling, payload, some r.parent⟩

def World.careful : World := ⟨Token.Proper, Supply.Fresh, Snapshot.Apart⟩

namespace Engine

variable {fitter : Fitter} {plan : Plan} {e : Engine} {snapshot : Snapshot}

theorem Stocked.siblings (h : e.Stocked fitter snapshot) (hapart : snapshot.Apart) :
    e.Orderly Siblings := by
  intro slot hs inputs pending htr g hg
  rcases h.joins slot hs inputs pending htr with rfl | ⟨hmem, hwidth⟩
  · cases hg
  obtain ⟨hnodup, hkin⟩ := hapart _ _ hmem g.record (List.mem_map_of_mem hg)
  rw [Generation.record_ids] at hnodup hkin
  refine ⟨⟨hwidth g hg, hnodup⟩, fun t ht => ?_⟩
  have hkept : t ∈ slot.transition.tokens := by
    rw [htr]
    exact List.mem_flatMap.2 ⟨g, hg, List.mem_cons_of_mem _ ht⟩
  obtain ⟨payload, hfind⟩ := hkin t.id (List.mem_map_of_mem ht)
  cases h.steps slot hs t hkept with
  | whole listed => cases listed.symm.trans hfind
  | @split id payload parent listed known =>
    have hrecord := TokenRecord.mk.inj (Option.some.inj (listed.symm.trans hfind))
    exact ⟨parent, rfl, Option.some.inj hrecord.2.2⟩

theorem captured_apart (hcoherent : e.lore.Coherent) (horderly : e.Orderly Siblings)
    (now : Timestamp) : (e.captured now).Apart := by
  intro step records hmem r hr
  obtain ⟨slot, hs, -, inputs, pending, htr, rfl⟩ := captured_join hmem
  obtain ⟨g, hg, rfl⟩ := List.mem_map.1 hr
  obtain ⟨⟨-, hdistinct⟩, hkin⟩ := horderly slot hs inputs pending htr g hg
  rw [Generation.record_ids]
  refine ⟨hdistinct, fun id hid => ?_⟩
  obtain ⟨t, ht, rfl⟩ := List.mem_map.1 hid
  obtain ⟨parent, hparent, hsame⟩ := hkin t ht
  have hkept : t ∈ e.tokens := by
    refine List.mem_append_right _ (List.mem_flatMap.2 ⟨slot, hs, ?_⟩)
    rw [htr]
    exact List.mem_flatMap.2 ⟨g, hg, List.mem_cons_of_mem _ ht⟩
  cases captured_reads hcoherent hkept with
  | whole => cases hparent
  | split listed known =>
    cases hparent
    exact ⟨_, hsame ▸ listed⟩

/-- A net that has just been started mentions the start token and what it comes from. -/
theorem entered_mentions (h : Built fitter plan e) {start t : Token} {path : List String}
    (ht : (e.entered start).MentionsAt path t) : path = [] ∧ t ∈ start :: start.ancestry := by
  cases path with
  | nil =>
    refine ⟨rfl, ht.own (fun hold hmem u hu => ?_) (fun slot hs u hu => ?_)
      fun u hu parent hparent => List.mem_cons_of_mem _ (Token.mem_ancestry hparent start hu)⟩
    · obtain ⟨p, hp⟩ := List.mem_iff_getElem?.1 hmem
      rcases mem_spread_add (mem_spread.2 ⟨hold, hp, hu⟩ :
        (p, u) ∈ spread Holding.tokens (e.holdings.modify e.startPlace (·.add start))) with
        hold' | rfl
      · obtain ⟨old, hat, hmem'⟩ := mem_spread.1 hold'
        rw [h.empty old (List.mem_of_getElem? hat)] at hmem'
        cases hmem'
      · exact List.mem_cons_self
    · obtain ⟨old, hold, heq⟩ := mem_activate hs
      rw [heq, (h.fresh hold).2.2] at hu
      cases hu
  | cons step path =>
    obtain ⟨slot, hs, -, nest, u, child, hbusy, -⟩ := MentionsAt.inside ht
    exact absurd hbusy (entered_vacant h start hs nest u child)

theorem entered_coherent (h : Built fitter plan e) {start : Token} (proper : start.Proper) :
    (e.entered start).lore.Coherent := by
  intro path t ht u hu hid
  exact proper t (entered_mentions h ht).2 u (entered_mentions h hu).2 hid

structure Straight (e : Engine) : Prop where
  coherent : e.lore.Coherent
  orderly : e.Orderly Siblings

theorem Straight.scene (h : e.Straight) (hfits : e.Throughout (Fits fitter)) {s s' : Supply}
    (hfresh : Supply.Fresh e.Mentions s s') : Scene.Straight fitter s' ⟨e, s, e.lore⟩ :=
  ⟨sound_lore hfits s, ⟨h.coherent, hfresh⟩, h.orderly⟩

/-- A proper start token keeps a net coherent. -/
theorem Steady.opened_coherent (hsteady : e.Steady fitter plan) (h : e.lore.Coherent) {call : Call}
    (starts : ∀ t, call = .start t → t.Proper) : (e.opened call).lore.Coherent := by
  rcases opened_cases e call with hsame | ⟨t, rfl, hcreated, hentered⟩
  · rw [hsame]
    exact h
  · rw [hentered]
    exact entered_coherent (built_of_build (hsteady.created hcreated)) (starts t rfl)

theorem Straight.opened (hsteady : e.Steady fitter plan) (h : e.Straight) {call : Call}
    (starts : ∀ t, call = .start t → t.Proper) : (e.opened call).Straight := by
  refine ⟨hsteady.opened_coherent h.coherent starts, ?_⟩
  rcases opened_cases e call with hsame | ⟨t, -, hcreated, hentered⟩
  · rw [hsame]
    exact h.orderly
  · rw [hentered]
    exact (built_of_build (hsteady.created hcreated)).entered_orderly t

/-- Identities and siblings can be relied on in every net that comes about. -/
theorem Reachable.straight (hf : fitter.Regular) (h : Reachable World.careful fitter plan e) :
    e.Straight := by
  refine h.keeps hf (A := Snapshot.Apart) ?_ ?_ ?_ id ?_ ?_ ?_
  · intro e hbuild
    have hb := built_of_build hbuild
    refine ⟨fun path t ht => absurd ht ?_, hb.orderly⟩
    exact not_mentionsAt hb.empty (fun slot hs => (hb.fresh hs).2.2)
      (fun slot hs => hb.vacant hs) path t
  · intro e call s events e' s' lore' hsteady he starts hopens hcourse fresh
    have hopened := he.opened hsteady starts
    have hend := hcourse.straight hf (Nat.le_refl _) (hopened.scene hopens.fits fresh)
    exact ⟨(hcourse.coherent hf hopens.fits hopened.coherent fresh).2, hend.orderly⟩
  · exact fun now he => ⟨(lore_pause _ now).symm ▸ he.coherent, he.orderly.pause now⟩
  · exact fun now _ _ he => captured_apart he.coherent he.orderly now
  · intro e snapshot hbuild hapart
    have hall := Snapshot.throughout_of_forall (fun _ => True.intro) snapshot
    have hstocked := (restore_throughout hf hall hbuild).2
    refine ⟨coherent_of_stocked (hstocked.imp fun e ⟨snapshot, _, hs⟩ => ⟨snapshot, hs⟩), ?_⟩
    exact (restore_stocked hf hbuild snapshot).siblings hapart
  · exact fun _ he => ⟨he.coherent.anti (lore_dispose _), he.orderly.dispose⟩

theorem outline_opened (e : Engine) (call : Call) : (e.opened call).outline = e.outline := by
  cases call with
  | start t =>
    change (if e.status = .created then e.entered t else e).outline = e.outline
    by_cases hcreated : e.status = .created
    · rw [if_pos hcreated, outline_entered]
    · rw [if_neg hcreated]
  | complete => rfl
  | resume => rfl

/-- What a call brings in: the token that a new net is started with. -/
def Call.offer (e : Engine) : Call → Marking
  | .start t => if e.status = .created then {(.place e.startPlace, t)} else 0
  | .complete _ _ _ | .resume => 0

theorem marking_opened (hsteady : e.Steady fitter plan) (call : Call) :
    (e.opened call).marking = call.offer e + e.marking := by
  cases call with
  | start t =>
    change (if e.status = .created then e.entered t else e).marking =
      (if e.status = .created then {(.place e.startPlace, t)} else 0) + e.marking
    by_cases hcreated : e.status = .created
    · have hb := built_of_build (hsteady.created hcreated)
      rw [if_pos hcreated, if_pos hcreated]
      rw [marking_entered hb.startPlace_lt, Multiset.singleton_add]
    · rw [if_neg hcreated, if_neg hcreated, zero_add]
  | complete => exact (zero_add _).symm
  | resume => exact (zero_add _).symm

theorem Call.Refusal.offers {call : Call} {f : Fault} (h : call.Refusal e f) :
    e.opened call = e ∧ call.offer e = 0 := by
  cases h with
  | start t isNew => exact ⟨if_neg isNew, if_neg isNew⟩
  | complete => exact ⟨rfl, rfl⟩
  | resume => exact ⟨rfl, rfl⟩

/-- Whatever comes of a call, it plays the token game of the net, and reports the
steps that have fired in order. -/
theorem plays_token_game (hf : fitter.Regular) (h : Reachable World.careful fitter plan e)
    {fuel : Nat} {call : Call} {s : Supply} {run : Run} (starts : ∀ t, call = .start t → t.Proper)
    (answers : e.answer fuel s call = some run)
    (fresh : Supply.Fresh (e.opened call).Mentions s run.supply) :
    ∃ seen, Moves e.outline.slots (run.events.filterMap Event.own?)
        ⟨call.offer e + e.marking, {id | ∃ t, (e.opened call).Mentions t ∧ t.id = id}⟩
        ⟨run.engine.marking, seen⟩ ∧
      ∀ t, run.engine.Mentions t → t.id ∈ seen := by
  have hsteady := h.steady hf
  rcases hsteady.answer hf answers with ⟨f, hrefusal, rfl⟩ | ⟨hopens, hproper⟩
  · obtain ⟨hopened, hoffer⟩ := hrefusal.offers
    rw [hopened, hoffer, zero_add]
    exact ⟨_, .nil _, fun t ht => ⟨t, ht, rfl⟩⟩
  · obtain ⟨lore, hcourse⟩ := hproper.course
    have hstart := ((h.straight hf).opened hsteady starts).scene hopens.fits fresh
    have hmoves := hcourse.moves hf (Nat.le_refl _) hstart
    have hknown := lore_le (hcourse.sound hf hstart.sound)
    rw [← marking_opened hsteady call, ← outline_opened e call]
    refine ⟨_, .learn ?_ hmoves, fun t ⟨path, ht⟩ => ⟨path, t, hknown path ht, rfl⟩⟩
    rintro id ⟨t, ⟨path, ht⟩, hid⟩
    exact ⟨path, t, ht, hid⟩

def fork : Plan where
  id := "fork"
  version := 1
  places := [{ id := "in", role := .start }, { id := "left" }, { id := "right" },
    { id := "out", role := .terminal }]
  steps := [⟨"split", none, ["in"], ["left", "right"], .split⟩,
    ⟨"join", none, ["left", "right"], ["out"], .join⟩]

def whole : Token := ⟨⟨0⟩, none, none⟩

theorem whole_proper : whole.Proper := by
  intro u hu v hv _
  rw [List.mem_singleton.1 hu, List.mem_singleton.1 hv]

def counting : Supply := ⟨fun n => ⟨BitVec.ofNat 128 (n + 1)⟩, 0⟩

/-- The work item of a fork is split and made whole again. -/
theorem fork_plays : ∃ e run seen, build .standard fork = .ok e ∧
    e.answer 10 counting (.start whole) = some run ∧
    Moves e.outline.slots ["split", "join"] ⟨{(.place 0, whole)}, {whole.id}⟩
      ⟨{(.place 3, whole)}, seen⟩ := by
  obtain ⟨e, hbuild⟩ : ∃ e, build .standard fork = .ok e := ⟨_, rfl⟩
  have hb := built_of_build hbuild
  obtain ⟨run, hanswer, hsupply, hevents, hbefore, hafter⟩ :
      ∃ run, e.answer 10 counting (.start whole) = some run ∧
        run.supply = ⟨counting.draw, 2⟩ ∧ run.events.filterMap Event.own? = ["split", "join"] ∧
        Call.offer e (.start whole) + e.marking = {(.place 0, whole)} ∧
        run.engine.marking = {(.place 3, whole)} := by
    cases hbuild
    exact ⟨_, rfl, rfl, rfl, rfl, rfl⟩
  have hopened : e.opened (.start whole) = e.entered whole := if_pos hb.status
  have hfresh : Supply.Fresh (e.opened (.start whole)).Mentions counting run.supply := by
    rw [hsupply, hopened]
    intro i _ hi
    change i < 2 at hi
    have hnew : ∀ t, (e.entered whole).Mentions t → t = whole :=
      fun t ⟨path, ht⟩ => List.mem_singleton.1 (entered_mentions hb ht).2
    obtain rfl | rfl : i = 0 ∨ i = 1 := by omega
    · exact ⟨fun t ht => by rw [hnew t ht]; decide, fun j _ hj => by cases hj⟩
    · refine ⟨fun t ht => by rw [hnew t ht]; decide, fun j _ hj => ?_⟩
      obtain rfl := Nat.lt_one_iff.1 hj
      decide
  obtain ⟨seen, hmoves, -⟩ := plays_token_game Fitter.standard_regular (.built hbuild)
    (fun t ht => by cases ht; exact whole_proper) hanswer hfresh
  rw [hevents, hbefore, hafter, hopened] at hmoves
  refine ⟨e, run, seen, hbuild, hanswer, .learn ?_ hmoves⟩
  rintro id rfl
  exact ⟨whole, ⟨[], hb.mentions_start whole⟩, rfl⟩

/-- A plan whose join takes all its siblings from one place. -/
def jam : Plan where
  id := "jam"
  version := 1
  places := [{ id := "in", role := .start }, { id := "out", role := .terminal }]
  steps := [⟨"join", none, ["in", "in", "in"], ["out"], .join⟩]

/-- Two siblings in the place, one of which the join lists twice. -/
def jammed : Snapshot where
  planId := "jam"
  version := 1
  fingerprint := jam.fingerprint
  capturedAt := default
  tokens := [⟨⟨3⟩, none, none⟩, ⟨⟨1⟩, none, some ⟨3⟩⟩, ⟨⟨2⟩, none, some ⟨3⟩⟩]
  places := [⟨"in", [⟨1⟩, ⟨2⟩]⟩]
  transitions := [⟨"join", .join [⟨⟨3⟩, [some ⟨1⟩, some ⟨1⟩, none]⟩]⟩]

/-- A net whose only step is a join moves only if there is a token for each input. -/
theorem join_moves {step : String} {inputs outputs : List Nat} {phase : Phase} {width : Nat}
    {label : Option String} {a b : Position}
    (h : Move [⟨step, inputs, outputs, phase, .join width []⟩] label a b) :
    inputs.length ≤ a.marking.card := by
  cases h with
  | @join i q slot t taken rest seen stands kind each =>
    obtain rfl := List.mem_singleton.1 (List.mem_of_getElem? stands)
    have hlength := congrArg List.length each
    rw [List.length_map] at hlength
    simp only [ofPlaces, Multiset.card_add, Multiset.card_map, Multiset.coe_card, hlength]
    exact Nat.le_add_right _ _
  | pass stands kind =>
    obtain rfl := List.mem_singleton.1 (List.mem_of_getElem? stands)
    cases kind
  | routed stands kind =>
    obtain rfl := List.mem_singleton.1 (List.mem_of_getElem? stands)
    obtain ⟨rule, hrule⟩ := kind
    cases hrule
  | split stands kind =>
    obtain rfl := List.mem_singleton.1 (List.mem_of_getElem? stands)
    cases kind
  | start stands kind =>
    obtain rfl := List.mem_singleton.1 (List.mem_of_getElem? stands)
    rcases kind with ⟨_, hkind⟩ | ⟨_, hkind⟩ <;> cases hkind
  | finish stands kind =>
    obtain rfl := List.mem_singleton.1 (List.mem_of_getElem? stands)
    rcases kind with ⟨_, hkind⟩ | ⟨_, hkind⟩ <;> cases hkind

theorem join_waits {step : String} {inputs outputs : List Nat} {phase : Phase} {width : Nat}
    {fired : List String} {a b : Position}
    (h : Moves [⟨step, inputs, outputs, phase, .join width []⟩] fired a b)
    (few : a.marking.card < inputs.length) : b.marking = a.marking := by
  induction h with
  | nil => rfl
  | learn _ _ ih => exact ih few
  | cons move => exact absurd (join_moves move) (Nat.not_le.2 few)

/-- A net that was given a snapshot of this kind loses a token. -/
theorem jam_loses_token : ∃ e run,
    Reachable ⟨Token.Proper, Supply.Fresh, fun _ => True⟩ .standard jam e ∧
    e.answer 10 counting .resume = some run ∧ ∀ fired seen seen', ¬ Moves e.outline.slots fired
      ⟨Call.resume.offer e + e.marking, seen⟩ ⟨run.engine.marking, seen'⟩ := by
  have hcards : ((build .standard jam).toOption.bind fun e =>
      ((e.restore jammed).1.answer 10 counting .resume).map fun run =>
        ((e.restore jammed).1.marking.card, run.engine.marking.card)) = some (2, 1) := by
    decide +kernel
  obtain ⟨fresh, hbuild⟩ : ∃ fresh, build .standard jam = .ok fresh := ⟨_, rfl⟩
  have hslots : fresh.outline.slots = [⟨"join", [0, 0, 0], [1], .initialized, .join 3 []⟩] := by
    cases hbuild
    rfl
  rw [← ((built_of_build hbuild).fed jammed).outline] at hslots
  rw [hbuild] at hcards
  obtain ⟨run, hanswer, hboth⟩ := Option.map_eq_some_iff.1 hcards
  obtain ⟨hbefore, hafter⟩ := Prod.mk.inj hboth
  refine ⟨_, run, .restored (.built hbuild) trivial, hanswer, fun fired seen seen' hmoves => ?_⟩
  have hoffer : Call.resume.offer (fresh.restore jammed).1 = 0 := rfl
  rw [hslots, hoffer, zero_add] at hmoves
  have hsame := join_waits hmoves (by rw [hbefore]; decide)
  dsimp only at hsame
  rw [hsame, hbefore] at hafter
  cases hafter

end Engine
end RecipeNet
