import RecipeNet.Proofs.Net.Mention

/-!
The order that joins keep. A generation has a slot for each input, no token in
two slots, and only siblings whose parent is its own. Properties of this kind
last if they hold of new generations and if seating a token and refreshing keep
them.
-/

namespace RecipeNet

/-- A property of the generations of joins with some number of inputs that lasts. -/
structure Generation.Lasting (F : Nat → Generation → Prop) : Prop where
  fresh : ∀ (parent : Token) (width : Nat), F width ⟨parent, List.replicate width none⟩
  seated : ∀ {inputs k : Nat} {g : Generation} {t parent : Token}, F inputs g →
    t.parent = some parent → g.parent.id = parent.id → g.buffers t = false →
    g.slots[k]? = some none → F inputs { g with slots := g.slots.set k (some t) }
  refreshed : ∀ {inputs : Nat} {g : Generation} (r : Reaction), F inputs g → F inputs (g.refresh r)

def Engine.Joins (P : Nat → List Generation → Prop) (e : Engine) : Prop :=
  ∀ slot ∈ e.slots, ∀ inputs pending, slot.transition = .join inputs pending → P inputs pending

def Engine.Orderly (F : Nat → Generation → Prop) (e : Engine) : Prop :=
  ∀ slot ∈ e.slots, ∀ inputs pending, slot.transition = .join inputs pending →
    ∀ g ∈ pending, F inputs g

namespace Generation

variable {g : Generation} {t : Token} {inputs k : Nat}

def Full (inputs : Nat) (g : Generation) : Prop := g.slots.length = inputs

def Distinct (g : Generation) : Prop := ((g.slots.filterMap id).map (·.id)).Nodup

def Kin (g : Generation) : Prop :=
  ∀ t ∈ g.slots.filterMap id, ∃ parent, t.parent = some parent ∧ parent.id = g.parent.id

theorem seated_perm (hk : g.slots[k]? = some none) (t : Token) :
    ((g.slots.set k (some t)).filterMap id).Perm (t :: g.slots.filterMap id) := by
  obtain ⟨hlt, hat⟩ := List.getElem?_eq_some_iff.1 hk
  have hsplit : g.slots = g.slots.take k ++ none :: g.slots.drop (k + 1) := by
    rw [← hat, List.getElem_cons_drop, List.take_append_drop]
  have hset : g.slots.set k (some t) = g.slots.take k ++ some t :: g.slots.drop (k + 1) :=
    List.set_eq_take_append_cons_drop.trans (if_pos hlt)
  have hold : g.slots.filterMap id =
      (g.slots.take k).filterMap id ++ (g.slots.drop (k + 1)).filterMap id := by
    conv_lhs => rw [hsplit]
    rw [List.filterMap_append]
    rfl
  rw [hset, hold, List.filterMap_append]
  exact List.perm_middle

theorem refresh_sublist (g : Generation) (r : Reaction) :
    ((g.refresh r).slots.filterMap id).Sublist (g.slots.filterMap id) := by
  have hgen : ∀ (slots : List (Option Token)) (n : Nat),
      (((slots.zipIdx n).map fun x => x.1.filter (r.holds x.2 ·)).filterMap
        id).Sublist (slots.filterMap id) := by
    intro slots
    induction slots with
    | nil => exact fun _ => .slnil
    | cons slot rest ih =>
      intro n
      have hrest := ih (n + 1)
      rw [List.zipIdx_cons, List.map_cons]
      cases slot with
      | none => exact hrest
      | some t =>
        by_cases hholds : r.holds n t = true
        · simp only [Option.filter, hholds, if_true]
          exact hrest.cons_cons t
        · simp only [Option.filter, hholds]
          exact hrest.cons t
  exact hgen g.slots 0

theorem buffers_false (h : g.buffers t = false) : ∀ u ∈ g.slots.filterMap id, u.id ≠ t.id := by
  intro u hu heq
  obtain ⟨slot, hslot, hsome⟩ := List.mem_filterMap.1 hu
  have hany : g.buffers t = true := by
    rw [buffers, List.any_eq_true]
    refine ⟨slot, hslot, ?_⟩
    rw [show slot = some u from hsome]
    exact Token.same_iff.2 heq
  rw [h] at hany
  cases hany

theorem siblings_tokens (g : Generation) : g.siblings.map (·.2) = g.slots.filterMap id := by
  have hall : ∀ (slots : List (Option Token)) (n : Nat),
      ((slots.zipIdx n).filterMap fun x => x.1.map (x.2, ·)).map (·.2) =
        slots.filterMap id := by
    intro slots
    induction slots with
    | nil => exact fun _ => rfl
    | cons slot rest ih =>
      intro n
      have hrest := ih (n + 1)
      cases slot with
      | none => exact hrest
      | some t => exact congrArg (t :: ·) hrest
  exact hall g.slots 0

theorem siblings_ids (g : Generation) :
    g.siblings.map (·.2.id) = (g.slots.filterMap id).map (·.id) := by
  rw [← siblings_tokens, List.map_map]
  rfl

theorem record_ids (g : Generation) :
    g.record.slots.filterMap id = (g.slots.filterMap id).map (·.id) := by
  simp only [Generation.record, List.filterMap_map, List.map_filterMap]
  rfl

/-- Siblings that are all there can be taken together. -/
theorem Distinct.consume (h : g.Distinct) {r : Reaction}
    (held : ∀ e ∈ g.siblings, r.holds e.1 e.2 = true) : (r.consume g.siblings).2 = .ok () := by
  refine Reaction.consume_distinct held ?_
  rw [siblings_ids]
  exact h

/-- A complete generation has a sibling for each of its inputs, in order. -/
theorem siblings_complete (h : g.isComplete = true) :
    g.siblings.map (·.1) = List.range g.slots.length := by
  have hall : ∀ (slots : List (Option Token)) (n : Nat), (∀ slot ∈ slots, slot.isSome) →
      ((slots.zipIdx n).filterMap fun x => x.1.map (x.2, ·)).map (·.1) =
        List.range' n slots.length := by
    intro slots
    induction slots with
    | nil => exact fun _ _ => rfl
    | cons slot rest ih =>
      intro n hsome
      obtain ⟨hfirst, hrest⟩ := List.forall_mem_cons.1 hsome
      obtain ⟨t, rfl⟩ := Option.isSome_iff_exists.1 hfirst
      exact congrArg (n :: ·) (ih (n + 1) hrest)
  rw [List.range_eq_range']
  exact hall g.slots 0 (List.all_eq_true.1 h)

/-- A generation is complete when as many siblings sit in it as it has seats. -/
theorem complete_of_ids {ids : List TokenId} (distinct : ids.Nodup)
    (many : ids.length = g.slots.length)
    (sit : ∀ i ∈ ids, ∃ t ∈ g.slots.filterMap id, t.id = i) : g.isComplete = true := by
  have hsub : ids ⊆ (g.slots.filterMap id).map (·.id) := by
    intro i hi
    obtain ⟨t, ht, rfl⟩ := sit i hi
    exact List.mem_map_of_mem ht
  have hle := (distinct.subperm hsub).length_le
  have hge := List.length_filterMap_le id g.slots
  rw [List.length_map] at hle
  have hfull : (g.slots.filterMap id).length = g.slots.length := by omega
  show g.slots.all (·.isSome) = true
  exact List.all_eq_true.2 (List.filterMap_length_eq_length.1 hfull)

theorem full_lasting : Lasting Full where
  fresh _ _ := List.length_replicate
  seated h _ _ _ _ := List.length_set.trans h
  refreshed r h := by
    unfold Full at h ⊢
    rw [← h]
    simp only [refresh, List.length_map, List.length_zipIdx]

theorem distinct_lasting : Lasting fun _ => Distinct where
  fresh parent width := by
    unfold Distinct
    simp only [List.filterMap_replicate, id, List.map_nil, List.nodup_nil]
  seated {_ k g t _} h _ _ unseen free := by
    have hperm := (seated_perm free t).map (·.id)
    unfold Distinct at h ⊢
    rw [hperm.nodup_iff, List.map_cons, List.nodup_cons]
    refine ⟨fun hmem => ?_, h⟩
    obtain ⟨u, hu, hid⟩ := List.mem_map.1 hmem
    exact buffers_false unseen u hu hid
  refreshed {_ g} r h := ((refresh_sublist g r).map fun t : Token => t.id).nodup h

theorem kin_lasting : Lasting fun _ => Kin where
  fresh parent width := by
    intro t ht
    simp at ht
  seated {_ k g t parent} h isSplit same _ free := by
    intro u hu
    rcases List.mem_cons.1 ((seated_perm free t).mem_iff.1 hu) with rfl | hold
    · exact ⟨parent, isSplit, same.symm⟩
    · exact h u hold
  refreshed {_ g} r h t ht := h t ((refresh_sublist g r).mem ht)

theorem Lasting.and {F G : Nat → Generation → Prop} (hF : Lasting F) (hG : Lasting G) :
    Lasting fun inputs g => F inputs g ∧ G inputs g where
  fresh parent width := ⟨hF.fresh parent width, hG.fresh parent width⟩
  seated h isSplit same unseen free :=
    ⟨hF.seated h.1 isSplit same unseen free, hG.seated h.2 isSplit same unseen free⟩
  refreshed r h := ⟨hF.refreshed r h.1, hG.refreshed r h.2⟩

end Generation

/-- A generation that a token is seated in is that of its parent. -/
theorem Join.mem_located {pending placed : List Generation} {parent : Token} {width j : Nat}
    (located : locate pending parent width = (placed, j)) :
    (∀ g ∈ placed, g ∈ pending ∨ g = ⟨parent, List.replicate width none⟩) ∧
      ∀ g, placed[j]? = some g → g.parent.id = parent.id := by
  rcases locate_cases pending parent width with ⟨i, g, hsame, hat, hfind⟩ | ⟨hnew, -⟩
  · cases hsame.symm.trans located
    refine ⟨fun g hg => .inl hg, fun g' hg' => ?_⟩
    obtain ⟨hlt, hparent, -⟩ := List.findIdx?_eq_some_iff_getElem.1 hfind
    rw [List.getElem?_eq_getElem hlt] at hg'
    obtain rfl := Option.some.inj hg'
    exact Token.same_iff.1 hparent
  · cases hnew.symm.trans located
    refine ⟨fun g hg => ?_, fun g hg => ?_⟩
    · rcases List.mem_append.1 hg with hold | hlast
      · exact .inl hold
      · exact .inr (List.mem_singleton.1 hlast)
    · simp only [List.getElem?_concat_length, Option.some.injEq] at hg
      exact congrArg (fun g : Generation => g.parent.id) hg.symm

namespace Join

structure Lasting (P : Nat → List Generation → Prop) : Prop where
  dropped : ∀ {inputs : Nat} {pending : List Generation} (j : Nat), P inputs pending →
    P inputs (pending.eraseIdx j)
  seated : ∀ {inputs j k : Nat} {pending placed : List Generation} {g : Generation}
    {t parent : Token}, P inputs pending → locate pending parent inputs = (placed, j) →
    placed[j]? = some g → t.parent = some parent → g.buffers t = false →
    g.slots[k]? = some none →
    P inputs (placed.set j { g with slots := g.slots.set k (some t) })
  refreshed : ∀ {inputs j : Nat} {pending : List Generation} {g : Generation} (r : Reaction),
    P inputs pending → pending[j]? = some g →
    P inputs (pending.eraseIdx j ++ [g.refresh r])

end Join

/-- What lasts of each generation lasts of all that a join has noted. -/
theorem Generation.Lasting.joins {F : Nat → Generation → Prop} (lasting : Lasting F) :
    Join.Lasting fun inputs pending => ∀ g ∈ pending, F inputs g where
  dropped j h g hg := h g (List.mem_of_mem_eraseIdx hg)
  seated {inputs j k pending placed g t parent} h located isPlaced isSplit unseen free := by
    obtain ⟨hmembers, hparent⟩ := Join.mem_located located
    have hplaced : ∀ g ∈ placed, F inputs g := by
      intro g hg
      rcases hmembers g hg with hold | rfl
      · exact h g hold
      · exact lasting.fresh parent _
    intro g' hg'
    rcases List.mem_or_eq_of_mem_set hg' with hold | rfl
    · exact hplaced g' hold
    · exact lasting.seated (hplaced g (List.mem_of_getElem? isPlaced)) isSplit
        (hparent g isPlaced) unseen free
  refreshed {inputs j pending g} r h isPending g' hg' := by
    rcases List.mem_append.1 hg' with hold | hnew
    · exact h g' (List.mem_of_mem_eraseIdx hold)
    · obtain rfl := List.mem_singleton.1 hnew
      exact lasting.refreshed r (h g (List.mem_of_getElem? isPending))

namespace Engine

variable {P : Nat → List Generation → Prop} {F : Nat → Generation → Prop} {e : Engine} {i : Nat}
  {hs : List Holding}

theorem Joins.become (h : e.Joins P) {tr : Transition}
    (joins : ∀ inputs pending, tr = .join inputs pending → P inputs pending) :
    (e.become i hs tr).Joins P := by
  intro slot hslot inputs pending htr
  rcases mem_become hslot with hold | ⟨old, -, rfl⟩
  · exact h slot hold inputs pending htr
  · exact joins inputs pending htr

theorem Joins.halt (h : e.Joins P) (f : Fault) : (e.halt f).Joins P := by
  intro slot hslot
  rw [slots_halt] at hslot
  exact h slot hslot

theorem Built.joins {fitter : Fitter} {plan : Plan} (h : Built fitter plan e)
    (none : ∀ inputs, P inputs []) : e.Joins P := by
  intro slot hs inputs pending htr
  obtain ⟨step, -, hfit⟩ := exists_left_of_forall₂ h.slots hs
  obtain ⟨ins, outs, fitting, -, -, -, rfl⟩ := fitSlot_ok.1 hfit
  cases fitting with
  | join =>
    cases htr
    exact none _
  | _ => cases htr

theorem Built.entered_joins {fitter : Fitter} {plan : Plan} (h : Built fitter plan e)
    (none : ∀ inputs, P inputs []) (t : Token) : (e.entered t).Joins P := by
  intro slot hs inputs pending htr
  obtain ⟨old, hold, heq⟩ := mem_activate hs
  exact h.joins none old hold inputs pending (heq ▸ htr)

theorem Built.orderly {fitter : Fitter} {plan : Plan} (h : Built fitter plan e) : e.Orderly F :=
  h.joins fun _ => List.forall_mem_nil _

theorem Built.entered_orderly {fitter : Fitter} {plan : Plan} (h : Built fitter plan e)
    (t : Token) : (e.entered t).Orderly F :=
  h.entered_joins (fun _ => List.forall_mem_nil _) t

end Engine

/-- Whatever a net does, what lasts of its joins is kept. -/
theorem Act.joins {P : Nat → List Generation → Prop} (lasting : Join.Lasting P)
    {fitter : Fitter} (hf : fitter.Regular) {sc sc' : Scene} {events : List Event}
    (h : Act sc events sc') (hfits : sc.engine.Fits fitter) (hsc : sc.engine.Joins P) :
    sc'.engine.Joins P := by
  cases h with
  | woken =>
    intro slot hs inputs pending htr
    obtain ⟨old, hold, heq⟩ := Engine.mem_activate hs
    exact hsc old hold inputs pending (heq ▸ htr)
  | @fired _ _ slot _ _ _ running stands fires =>
    have hmem := List.mem_of_getElem? stands
    refine hsc.become fun inputs pending htr => ?_
    generalize hold : slot.transition = tr at fires
    cases fires with
    | join ins old j =>
      cases htr
      exact lasting.dropped j (hsc slot hmem _ _ hold)
    | _ => cases htr
  | @seated _ _ slot ins pending placed t parent g j k running stands join known isSplit
      parentKnown holds located isPlaced unseen free =>
    have hmem := List.mem_of_getElem? stands
    have hsuits := (hfits.slot hf hmem).suits
    rw [join] at hsuits
    refine hsc.become fun inputs pending' htr => ?_
    cases htr
    rw [← hsuits.1] at located
    exact lasting.seated (hsc slot hmem _ _ join) located isPlaced isSplit unseen free
  | @refreshed _ _ slot ins pending g j running stands join isPending =>
    have hall := hsc slot (List.mem_of_getElem? stands) _ _ join
    refine hsc.become fun inputs pending' htr => ?_
    cases htr
    exact lasting.refreshed _ hall isPending
  | @botched _ _ slot ins pending g j _ _ _ running stands join =>
    have hall := hsc slot (List.mem_of_getElem? stands) _ _ join
    refine Engine.Joins.halt (hsc.become fun inputs pending' htr => ?_) _
    cases htr
    exact lasting.dropped j hall
  | refused => exact hsc.halt _
  | balked => exact Engine.Joins.halt (hsc.become fun _ _ htr => by cases htr) _
  | released => exact hsc.become fun _ _ htr => by cases htr
  | closed => exact hsc.become fun _ _ htr => by cases htr
  | announced => exact hsc
  | ended => exact hsc
  | inside => exact hsc.become fun _ _ htr => by cases htr
  | sunk => exact hsc.halt _

/-- Whatever a net does, its joins keep their order. -/
theorem Act.orderly {F : Nat → Generation → Prop} (lasting : Generation.Lasting F)
    {fitter : Fitter} (hf : fitter.Regular) {sc sc' : Scene} {events : List Event}
    (h : Act sc events sc') (hfits : sc.engine.Fits fitter) (hsc : sc.engine.Orderly F) :
    sc'.engine.Orderly F :=
  h.joins lasting.joins hf hfits hsc

theorem Scene.throughout_engine {P : Engine → Prop} {e : Engine} (h : e.Throughout P) (s : Supply)
    (lore : Lore) : Scene.Throughout (fun sc => P sc.engine) ⟨e, s, lore⟩ := by
  induction h generalizing lore with
  | intro here _ ih =>
    exact .intro here fun slot hs nest t child ht => ih slot hs nest t child ht _

theorem Engine.throughout_scene {P : Engine → Prop} {sc : Scene}
    (h : sc.Throughout fun sc => P sc.engine) : sc.engine.Throughout P := by
  induction h with
  | intro here _ ih => exact .intro here fun slot hs nest t child ht => ih slot hs nest t child ht

/-- The joins of all nets within keep it too. -/
theorem Course.joins {P : Nat → List Generation → Prop} (lasting : Join.Lasting P)
    (none : ∀ inputs, P inputs []) {fitter : Fitter} (hf : fitter.Regular) {sc sc' : Scene}
    {events : List Event} (h : Course sc events sc')
    (hsc : sc.engine.Throughout fun e => e.Fits fitter ∧ e.Joins P) :
    sc'.engine.Throughout fun e => e.Fits fitter ∧ e.Joins P := by
  refine Engine.throughout_scene (h.keeps (fun {a b _} act ha => ?_)
    (Scene.throughout_engine hsc sc.supply sc.lore))
  refine act.throughout (fun _ e lore lore' _ he => he) (fun act ha => ?_) ?_ ha
  · have here := ha.here
    exact ⟨act.fits here.1, act.joins lasting hf here.1 here.2⟩
  · intro a slot nest t child hs hidle _ hbuild ha
    have here := ha.here
    exact ⟨Scene.fits_launched hf here.1 hs hidle hbuild _,
      (Engine.built_of_build hbuild).entered_joins none _⟩

theorem Course.orderly {F : Nat → Generation → Prop} (lasting : Generation.Lasting F)
    {fitter : Fitter} (hf : fitter.Regular) {sc sc' : Scene} {events : List Event}
    (h : Course sc events sc')
    (hsc : sc.engine.Throughout fun e => e.Fits fitter ∧ e.Orderly F) :
    sc'.engine.Throughout fun e => e.Fits fitter ∧ e.Orderly F :=
  h.joins lasting.joins (fun _ => List.forall_mem_nil _) hf hsc

end RecipeNet
