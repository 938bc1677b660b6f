import RecipeNet.Proofs.Net.Arrival

/-!
What becomes of a notice at a join. The token is given a free slot of the
generation of its parent, or it sits there already, or it is refused. A
generation that is complete with it fires, and one whose siblings have left in
the meantime is kept without them.
-/

namespace RecipeNet

namespace Join

variable {pending placed : List Generation} {parent : Token} {width : Nat}

/-- The generation of a parent, which may be a new one. -/
theorem locate_cases (pending : List Generation) (parent : Token) (width : Nat) :
    (∃ j g, locate pending parent width = (pending, j) ∧ pending[j]? = some g ∧
      pending.findIdx? (fun g => g.parent.same parent) = some j) ∨
    (locate pending parent width =
        (pending ++ [⟨parent, List.replicate width none⟩], pending.length) ∧
      ∀ g ∈ pending, g.parent.id ≠ parent.id) := by
  unfold locate
  split
  · rename_i j hj
    obtain ⟨hlt, -, -⟩ := List.findIdx?_eq_some_iff_getElem.1 hj
    exact .inl ⟨j, pending[j], rfl, List.getElem?_eq_getElem hlt, hj⟩
  · rename_i hnone
    refine .inr ⟨rfl, fun g hg heq => ?_⟩
    have hother := List.findIdx?_eq_none_iff.1 hnone g hg
    rw [Token.same_iff.2 heq] at hother
    cases hother

end Join

namespace Generation

variable {g : Generation} {r : Reaction} {k slot : Nat} {t : Token} {reason : Surprise}

theorem freeSlot_some (h : g.freeSlot? r t = some slot) :
    g.slots[slot]? = some none ∧ r.holds slot t = true := by
  obtain ⟨⟨current, input⟩, hfind, rfl⟩ := Option.map_eq_some_iff.1 h
  have hmem := List.mem_zipIdx_iff_getElem?.1 (List.mem_of_find?_eq_some hfind)
  have hboth := List.find?_some hfind
  simp only [Bool.and_eq_true, Option.isNone_iff_eq_none] at hboth
  obtain ⟨hnone, hholds⟩ := hboth
  exact ⟨by rw [hmem, hnone], hholds⟩

/-- A seat is free, and the place that it reads holds the token. -/
theorem seat_slot (held : r.holds k t = true) (h : g.seat r k t = .slot slot) :
    g.buffers t = false ∧ g.slots[slot]? = some none ∧ r.holds slot t = true := by
  unfold seat at h
  split at h
  · cases h
  · rename_i current hcurrent
    split at h
    · cases h
    · rename_i hunseen
      have hbuffers : g.buffers t = false := by
        simp only [Bool.or_eq_true, not_or, Bool.not_eq_true] at hunseen
        exact hunseen.2
      split at h
      · cases h
        exact ⟨hbuffers, hcurrent, held⟩
      · split at h
        · rename_i free hfree
          cases h
          exact ⟨hbuffers, freeSlot_some hfree⟩
        · cases h

/-- A token that keeps its seat has one. -/
theorem seat_seated (h : g.seat r k t = .seated) : g.buffers t = true := by
  unfold seat at h
  split at h
  · cases h
  · rename_i current hcurrent
    split at h
    · rename_i hseen
      rcases Bool.or_eq_true_iff.1 hseen with hhere | hseen
      · exact List.any_eq_true.2 ⟨current, List.mem_of_getElem? hcurrent, hhere⟩
      · exact hseen
    · split at h
      · cases h
      · split at h <;> cases h

theorem seat_none (h : g.seat r k t = .none reason) :
    (g.slots[k]? = none ∧ reason = .noSlot g.slots.length k) ∨
    ∃ held, g.slots[k]? = some (some held) ∧ g.buffers t = false ∧
      g.freeSlot? r t = none ∧ reason = .taken k held.id g.parent.id := by
  unfold seat at h
  split at h
  · rename_i hnone
    cases h
    exact .inl ⟨hnone, rfl⟩
  · rename_i current hcurrent
    split at h
    · cases h
    · rename_i hunseen
      have hbuffers : g.buffers t = false := by
        simp only [Bool.or_eq_true, not_or, Bool.not_eq_true] at hunseen
        exact hunseen.2
      split at h
      · cases h
      · rename_i held
        split at h
        · cases h
        · rename_i hfull
          cases h
          exact .inr ⟨held, hcurrent, hbuffers, hfull, rfl⟩

theorem buffers_replicate (parent t : Token) (width : Nat) :
    (⟨parent, List.replicate width none⟩ : Generation).buffers t = false := by
  simp [buffers]

theorem seat_new (parent : Token) {width : Nat} (hk : k < width) :
    (⟨parent, List.replicate width none⟩ : Generation).seat r k t = .slot k := by
  have hslot : (List.replicate width (none : Option Token))[k]? = some none := by
    simp [hk]
  unfold seat
  rw [hslot]
  simp [buffers_replicate]

end Generation

namespace Join

/-- A token has a free seat in the generation of its parent, which may be a new one. -/
structure Finds (pending : List Generation) (r : Reaction) (t parent : Token)
    (placed : List Generation) (j : Nat) (g : Generation) (k : Nat) : Prop where
  isSplit : t.parent = some parent
  located : locate pending parent r.inputs.length = (placed, j)
  isPlaced : placed[j]? = some g
  unseen : g.buffers t = false
  free : g.slots[k]? = some none
  holds : r.holds k t = true

/-- What a join does about a token that has arrived on an input. -/
inductive Arrives (pending : List Generation) (r : Reaction) (k : Nat) (t : Token) :
    Reaction × List Generation × Except Fault Unit → Prop
  | aside (known : r.holds k t = true → ∃ g ∈ pending, g.buffers t = true) :
    Arrives pending r k t (r, pending, .ok ())
  | refused {reason : Surprise} (holds : r.holds k t = true)
      (refuses : Refuses pending r k t reason) :
    Arrives pending r k t (r, pending, .error (.unexpectedToken r.step t.id reason))
  | noted {parent : Token} {placed : List Generation} {j slot : Nat} {g : Generation}
      (holds : r.holds k t = true) (finds : Finds pending r t parent placed j g slot)
      (lacks : ({ g with slots := g.slots.set slot (some t) } : Generation).isComplete = false) :
    Arrives pending r k t
      (r, placed.set j { g with slots := g.slots.set slot (some t) }, .ok ())
  | completed {parent : Token} {placed : List Generation} {j slot : Nat} {g : Generation}
      (holds : r.holds k t = true) (finds : Finds pending r t parent placed j g slot)
      (complete : ({ g with slots := g.slots.set slot (some t) } : Generation).isComplete = true) :
    Arrives pending r k t (Join.complete (placed.eraseIdx j)
      { g with slots := g.slots.set slot (some t) } r)

theorem Arrives.of_finds {r : Reaction} {k slot j : Nat} {t parent : Token} {g : Generation}
    (holds : r.holds k t = true) (finds : Finds pending r t parent placed j g slot) :
    Arrives pending r k t
      (if ({ g with slots := g.slots.set slot (some t) } : Generation).isComplete then
        Join.complete (placed.eraseIdx j) { g with slots := g.slots.set slot (some t) } r
      else (r, placed.set j { g with slots := g.slots.set slot (some t) }, .ok ())) := by
  split
  · exact .completed holds finds ‹_›
  · exact .noted holds finds (Bool.eq_false_iff.2 ‹_›)

theorem arrives (pending : List Generation) (r : Reaction) (k : Nat) (t : Token) :
    Arrives pending r k t (arrive pending r k t) := by
  unfold arrive
  by_cases hheld : r.holds k t = true
  · simp only [hheld, Bool.not_true, Bool.false_eq_true, if_false]
    cases hparent : t.parent with
    | none => exact .refused hheld (.whole hparent)
    | some parent =>
      dsimp only
      rcases locate_cases pending parent r.inputs.length with
        ⟨j, g, hlocate, hg, hfind⟩ | ⟨hlocate, -⟩
      · simp only [hlocate, hg]
        cases hseat : g.seat r k t with
        | seated =>
          exact .aside fun _ => ⟨g, List.mem_of_getElem? hg, Generation.seat_seated hseat⟩
        | none reason =>
          refine .refused hheld ?_
          rcases Generation.seat_none hseat with ⟨hout, rfl⟩ | ⟨other, hother, hunseen, hfull, rfl⟩
          · exact .narrow parent j g hparent hfind hg hout
          · exact .taken parent j g other hparent hfind hg hother hunseen hfull
        | slot slot =>
          obtain ⟨hunseen, hfree, hthere⟩ := Generation.seat_slot hheld hseat
          exact .of_finds hheld ⟨hparent, hlocate, hg, hunseen, hfree, hthere⟩
      · obtain ⟨place, -, hk, -, -⟩ := Reaction.holds_iff.1 hheld
        have hlt := (List.getElem?_eq_some_iff.1 hk).1
        have hnew : (pending ++ [⟨parent, List.replicate r.inputs.length none⟩])[pending.length]? =
            some ⟨parent, List.replicate r.inputs.length none⟩ := by simp
        have hfree : (List.replicate r.inputs.length (none : Option Token))[k]? = some none := by
          rw [List.getElem?_replicate, if_pos hlt]
        simp only [hlocate, hnew, Generation.seat_new parent hlt]
        exact .of_finds hheld ⟨hparent, hlocate, hnew, Generation.buffers_replicate _ _ _, hfree,
          hheld⟩
  · rw [if_pos (by simpa using hheld)]
    exact .aside fun h => absurd h hheld

/-- Whatever a join does about a token, it keeps its place in the net. -/
theorem arrive_follows (pending : List Generation) (r : Reaction) (k : Nat) (t : Token) :
    (arrive pending r k t).1.Follows r := by
  have harrives := arrives pending r k t
  generalize arrive pending r k t = answer at harrives
  cases harrives with
  | aside | refused | noted => exact .refl r
  | completed =>
    unfold complete
    generalize hfire : r.fire _ _ = fired
    obtain ⟨r', fault | _ | _⟩ := fired <;> exact Reaction.fire_follows hfire

end Join

namespace Station

variable {fitter : Fitter} {w : Station} {drive : Drive} {fuel k : Nat} {t : Token}
  {reacted : Reacted} {inputs : Nat} {pending placed : List Generation}

/-- A join has nothing waiting for it but what it has been told of, and no net within. -/
theorem Underway.fine_join (hw : w.Ready fitter) {r : Reaction} {s : Supply} {lore : Lore}
    (h : w.Underway r (.join inputs pending) s lore) :
    w.Fine ⟨r, .join inputs pending, s, .ok ()⟩ := by
  apply h.fine hw
  · exact fun heager => by cases heager
  · exact fun _ _ _ hbusy => by cases hbusy

/-- What sits in a generation is known. -/
theorem Underway.sitting_known (hf : fitter.Regular) (hw : w.Ready fitter) {r : Reaction}
    {s : Supply} {lore : Lore} (h : w.Underway r (.join inputs pending) s lore) {j : Nat}
    {g : Generation} (isPending : pending[j]? = some g) : ∀ x ∈ g.siblings, x.2 ∈ lore := by
  intro x hx
  have hsound := (h.course.sound hf hw.sound).informed
  refine hsound.steps _ (List.mem_of_getElem? (hw.stands_now r _)) x.2 ?_
  refine List.mem_flatMap.2 ⟨g, List.mem_of_getElem? isPending, List.mem_cons_of_mem _ ?_⟩
  obtain ⟨⟨slot, input⟩, hmem, hslot⟩ := List.mem_filterMap.1 hx
  obtain ⟨u, hu, rfl⟩ := Option.map_eq_some_iff.1 hslot
  exact List.mem_filterMap.2 ⟨slot, List.fst_mem_of_mem_zipIdx hmem, hu⟩

section

variable {s : Supply} {lore : Lore} {j : Nat} {g : Generation}
  (h : w.Underway (w.scene.engine.reaction w.slot) (.join inputs pending) s lore)
  (isPending : pending[j]? = some g)

include h isPending

/-- A generation that names a token more often than its place holds it halts the net half way. -/
theorem Underway.fine_botched (hw : w.Ready fitter) {mid : Reaction} {f : Fault}
    (consume : (w.scene.engine.reaction w.slot).consume g.siblings = (mid, .error f))
    (held : ∀ e ∈ g.siblings, (w.scene.engine.reaction w.slot).holds e.1 e.2 = true) :
    w.Fine ⟨mid, .join inputs (pending.eraseIdx j), s, .error f⟩ := by
  have hstands := hw.stands_now (w.scene.engine.reaction w.slot) (.join inputs pending)
  obtain ⟨place, id, rfl⟩ := Reaction.consume_error (congrArg Prod.snd consume)
  refine ⟨fun hok => (by cases hok), fun f hfault => ?_⟩
  obtain rfl := Except.error.inj hfault
  refine ⟨rfl, lore, ?_⟩
  have act : Act ⟨w.engine (w.scene.engine.reaction w.slot) (.join inputs pending), s, lore⟩
      [] ⟨((w.engine (w.scene.engine.reaction w.slot) (.join inputs pending)).become w.i
        mid.holdings (.join inputs (pending.eraseIdx j))).halt (.tokenNotHeld place id), s,
        lore⟩ := .botched h.running hstands rfl isPending consume held
  have hevents : mid.events = [] := by
    have hspec := (Reaction.consume_spec (w.scene.engine.reaction w.slot) g.siblings).2.2.1
    rw [consume] at hspec
    exact hspec
  have hcourse := h.course.snoc_silent act
  simp only [engine, Engine.become_become] at hcourse
  change Course w.scene mid.events _
  rw [hevents]
  exact hcourse

/-- A generation of which a sibling is gone keeps the others. -/
theorem Underway.fine_refreshed (hw : w.Ready fitter)
    (stale : ∃ e ∈ g.siblings, (w.scene.engine.reaction w.slot).holds e.1 e.2 = false) :
    w.Fine ⟨w.scene.engine.reaction w.slot, .join inputs (pending.eraseIdx j ++
      [g.refresh (w.scene.engine.reaction w.slot)]), s, .ok ()⟩ := by
  have hstands := hw.stands_now (w.scene.engine.reaction w.slot) (.join inputs pending)
  have act : Act ⟨w.engine (w.scene.engine.reaction w.slot) (.join inputs pending), s, lore⟩
      [] ⟨(w.engine (w.scene.engine.reaction w.slot) (.join inputs pending)).become w.i
        w.scene.engine.holdings (.join inputs (pending.eraseIdx j ++ [g.refresh
          ((w.engine (w.scene.engine.reaction w.slot) (.join inputs pending)).reaction
            { w.slot with transition := .join inputs pending })])), s, lore⟩ :=
    .refreshed h.running hstands rfl isPending stale
  have hcourse : Course ⟨w.engine (w.scene.engine.reaction w.slot) (.join inputs pending), s,
      lore⟩ [] ⟨w.engine (w.scene.engine.reaction w.slot) (.join inputs (pending.eraseIdx j ++
        [g.refresh (w.scene.engine.reaction w.slot)])), s, lore⟩ := by
    have hone := Course.of_act act
    simp only [engine, Engine.become_become] at hone ⊢
    exact hone
  have hkept := h.advance [] (Reaction.Follows.refl _) hcourse (by simp) (by simp)
    (List.forall_mem_nil _) fun x => Nat.le_add_right _ _
  exact hkept.fine_join hw

/-- A complete generation fires, or what is left of it is kept. -/
theorem Underway.fine_complete (hf : fitter.Regular) (hw : w.Ready fitter)
    (outs : w.slot.outputs.length = 1) (complete : g.isComplete = true) {r' : Reaction}
    {left : List Generation} {result : Except Fault Unit}
    (hcomplete : Join.complete (pending.eraseIdx j) g (w.scene.engine.reaction w.slot) =
      (r', left, result)) : w.Fine ⟨r', .join inputs left, s, result⟩ := by
  unfold Join.complete at hcomplete
  split at hcomplete
  · rename_i mid f hfire
    obtain ⟨rfl, rfl, rfl⟩ : mid = r' ∧ pending.eraseIdx j = left ∧ .error f = result := by
      simpa using hcomplete
    rcases Reaction.fire_error hfire with ⟨-, e, he, hnone, -⟩ | ⟨hheld, hconsume⟩
    · obtain rfl := List.mem_singleton.1 he
      have hone : w.slot.outputs[0]? = none := hnone
      rw [List.getElem?_eq_none_iff, outs] at hone
      omega
    · exact h.fine_botched isPending hw hconsume hheld
  · rename_i mid hfire
    obtain ⟨rfl, rfl, rfl⟩ : mid = r' ∧ pending.eraseIdx j = left ∧ .ok () = result := by
      simpa using hcomplete
    have hfires : (Transition.join inputs pending).Fires w.slot.step w.slot.outputs.length s
        ⟨g.siblings, [(0, g.parent)], [], .join inputs (pending.eraseIdx j), s, [], []⟩ :=
      .join inputs pending j g isPending complete
    have hfired := h.fired hf hw hfires (h.sitting_known hf hw isPending) hfire
    rw [silent] at hfired
    exact hfired.fine_join hw
  · rename_i mid hfire
    obtain ⟨rfl, rfl, rfl⟩ : mid = r' ∧ pending.eraseIdx j ++ [g.refresh mid] = left ∧
        .ok () = result := by
      simpa using hcomplete
    obtain ⟨rfl, hstale⟩ := Reaction.fire_false hfire
    exact h.fine_refreshed isPending hw hstale

end

/-- A sibling that is given a slot. -/
theorem Underway.seated (hw : w.Ready fitter) {s : Supply} {lore : Lore}
    (h : w.Underway (w.scene.engine.reaction w.slot) (.join inputs pending) s lore)
    (hlore : lore.Closed) (known : t ∈ lore) {parent : Token} {j slot : Nat} {g : Generation}
    (finds : Join.Finds pending (w.scene.engine.reaction w.slot) t parent placed j g slot) :
    w.Underway (w.scene.engine.reaction w.slot)
      (.join inputs (placed.set j { g with slots := g.slots.set slot (some t) })) s lore := by
  have hstands := hw.stands_now (w.scene.engine.reaction w.slot) (.join inputs pending)
  have act : Act ⟨w.engine (w.scene.engine.reaction w.slot) (.join inputs pending), s, lore⟩ []
      ⟨(w.engine (w.scene.engine.reaction w.slot) (.join inputs pending)).become w.i
        w.scene.engine.holdings
        (.join inputs (placed.set j { g with slots := g.slots.set slot (some t) })), s, lore⟩ :=
    .seated h.running hstands rfl known finds.isSplit (hlore [] t known parent finds.isSplit)
      finds.holds finds.located finds.isPlaced finds.unseen finds.free
  have hone := Course.of_act act
  simp only [engine, Engine.become_become] at hone
  exact h.advance [] (Reaction.Follows.refl _) hone (by simp) (by simp) (List.forall_mem_nil _)
    fun x => Nat.le_add_right _ _

/-- A token that a join refuses halts the net. -/
theorem Ready.fine_refused (hw : w.Ready fitter)
    (running : w.scene.engine.status = .running) (known : t ∈ w.scene.lore)
    (htr : w.slot.transition = .join inputs pending)
    (held : (w.scene.engine.reaction w.slot).holds k t = true) {reason : Surprise}
    (refuses : Join.Refuses pending (w.scene.engine.reaction w.slot) k t reason) :
    w.Fine ⟨w.scene.engine.reaction w.slot, .join inputs pending, w.scene.supply,
      .error (.unexpectedToken w.slot.step t.id reason)⟩ := by
  refine ⟨fun hok => (by cases hok), fun f hfault => ?_⟩
  obtain rfl := Except.error.inj hfault
  refine ⟨rfl, w.scene.lore, ?_⟩
  have hself : w.engine (w.scene.engine.reaction w.slot) (.join inputs pending) =
      w.scene.engine := by
    rw [← htr]
    exact Engine.become_self hw.stands
  rw [hself]
  exact Course.of_act (.refused running hw.stands htr known held refuses)

theorem Ready.arrive_join (hf : fitter.Regular) (hw : w.Ready fitter)
    (calm : w.scene.engine.Alert [] w.asleep w.owed (⟨w.i, k, t⟩ :: w.queue))
    (known : t ∈ w.scene.lore) (htr : w.slot.transition = .join inputs pending)
    (harrive : (Transition.join inputs pending).arrive drive fuel
      (w.scene.engine.reaction w.slot) k t w.scene.supply = some reacted) : w.Fine reacted := by
  have hsuits := hw.suits hf
  rw [htr] at hsuits
  obtain ⟨-, -, houts⟩ := hsuits
  have hstart := hw.start calm.attend
  have hidle := hw.fine_idle calm fun heager => by rw [htr] at heager; cases heager
  rw [htr] at hstart hidle
  simp only [Transition.arrive, Option.some.injEq] at harrive
  subst harrive
  generalize hout : Join.arrive pending (w.scene.engine.reaction w.slot) k t = out
  have harrives := Join.arrives pending (w.scene.engine.reaction w.slot) k t
  rw [hout] at harrives
  clear hout
  cases harrives with
  | aside => exact hidle
  | refused holds refuses => exact hw.fine_refused calm.brisk.running known htr holds refuses
  | noted holds finds => exact (hstart.seated hw hw.sound.closed known finds).fine_join hw
  | @completed parent placed j slot g holds finds complete =>
    have hseated := hstart.seated hw hw.sound.closed known finds
    have hlt := (List.getElem?_eq_some_iff.1 finds.isPlaced).1
    refine hseated.fine_complete (List.getElem?_set_self hlt) hf hw houts complete ?_
    rw [List.eraseIdx_set_eq]

end Station
end RecipeNet
