import RecipeNet.Proofs.Net.Alert

/-!
How a run ends. The first token that comes into a terminal place completes the
net, which reports it as the last thing it does; as long as none has come, the
tokens that were put into places have been passed on as notices.
-/

namespace RecipeNet

/-- Whether an event is the completion of the net itself. -/
def Event.Final : Event → Prop
  | .completed _ _ => True
  | _ => False

theorem Event.not_final_within {outer : String} {e e' : Event}
    (h : e.within outer = some e') : ¬ e'.Final := by
  cases e with
  | fired => cases h; exact id
  | started => cases h; exact id
  | completed => cases h

namespace Engine

variable {e : Engine}

theorem status_halt {f : Fault} (hf : f.halts = true) (hrun : e.status = .running) :
    (e.halt f).status = .halted ∧ (e.halt f).haltedBy = some f := by
  unfold halt
  rw [if_pos hf]
  exact ⟨if_pos (.inl hrun), rfl⟩

theorem open_halt {f : Fault} (h : e.status = .running) : (e.halt f).status ≠ .completed := by
  by_cases hf : f.halts = true
  · rw [(status_halt hf h).1]
    exact fun hne => by cases hne
  · unfold halt
    rw [if_neg hf, h]
    exact fun hne => by cases hne

theorem accept_of_not_running {place : Nat} {t : Token} (h : e.status ≠ .running) :
    e.accept place t = (e, []) := by
  unfold accept
  split
  · rw [if_neg (by simp [h])]
  · rfl

theorem accept_running (h : e.status = .running) (place : Nat) (t : Token) :
    (∃ hold, e.holdings[place]? = some hold ∧ hold.isTerminal = true ∧
      e.accept place t = ({ e with
        status := .completed, completion := some (hold.place.id, t) },
        [.completed hold.place.id t])) ∨
    (e.accept place t = (e, []) ∧
      ∀ hold, e.holdings[place]? = some hold → hold.isTerminal = false) := by
  unfold accept
  cases hat : e.holdings[place]? with
  | none => exact .inr ⟨rfl, fun _ hhold => by cases hhold⟩
  | some hold =>
    by_cases hterminal : hold.isTerminal = true
    · exact .inl ⟨hold, rfl, hterminal, by simp [hterminal, h]⟩
    · refine .inr ⟨by simp [hterminal], fun hold' hhold => ?_⟩
      obtain rfl := Option.some.inj hhold
      simpa using hterminal

theorem acceptAll_of_not_running (h : e.status ≠ .running) (made : List (Nat × Token)) :
    e.acceptAll made = (e, made.flatMap fun x => e.notices x.1 x.2, []) := by
  induction made with
  | nil => rfl
  | cons x rest ih =>
    obtain ⟨place, t⟩ := x
    simp only [acceptAll, accept_of_not_running h, ih]
    rfl

/-- Taking note of tokens completes the net or leaves it as it is. -/
theorem acceptAll_running (h : e.status = .running) (made : List (Nat × Token)) :
    (e.acceptAll made).2.1 = (made.flatMap fun x => e.notices x.1 x.2) ∧
    ((∃ x ∈ made, ∃ hold, e.holdings[x.1]? = some hold ∧ hold.isTerminal = true ∧
        (e.acceptAll made).1 = { e with
          status := .completed, completion := some (hold.place.id, x.2) } ∧
        (e.acceptAll made).2.2 = [.completed hold.place.id x.2]) ∨
      ((e.acceptAll made).1 = e ∧ (e.acceptAll made).2.2 = [] ∧
        ∀ x ∈ made, ∀ hold, e.holdings[x.1]? = some hold → hold.isTerminal = false)) := by
  induction made with
  | nil => exact ⟨rfl, .inr ⟨rfl, rfl, List.forall_mem_nil _⟩⟩
  | cons x rest ih =>
    obtain ⟨place, t⟩ := x
    simp only [acceptAll]
    rcases accept_running h place t with
      ⟨hold, hat, hterminal, heq⟩ | ⟨heq, hordinary⟩
    · simp only [heq]
      rw [acceptAll_of_not_running (by simp)]
      exact ⟨rfl, .inl ⟨(place, t), List.mem_cons_self, hold, hat, hterminal, rfl, rfl⟩⟩
    · simp only [heq]
      obtain ⟨hnotices, hcases⟩ := ih
      refine ⟨by rw [hnotices]; rfl, ?_⟩
      rcases hcases with ⟨y, hy, hended⟩ | ⟨hsame, hsilent, hrest⟩
      · exact .inl ⟨y, List.mem_cons_of_mem _ hy, hended⟩
      · refine .inr ⟨hsame, hsilent, fun y hy => ?_⟩
        rcases List.mem_cons.1 hy with rfl | hy
        · exact hordinary
        · exact hrest y hy

theorem acceptAll_cases (e : Engine) (made : List (Nat × Token)) :
    (e.status = .running ∧ ∃ x ∈ made, ∃ hold, e.holdings[x.1]? = some hold ∧
        hold.isTerminal = true ∧
        (e.acceptAll made).1 = { e with
          status := .completed, completion := some (hold.place.id, x.2) } ∧
        (e.acceptAll made).2.2 = [.completed hold.place.id x.2]) ∨
      ((e.acceptAll made).1 = e ∧ (e.acceptAll made).2.2 = []) := by
  by_cases h : e.status = .running
  · rcases (acceptAll_running h made).2 with hended | ⟨hsame, hsilent, -⟩
    · exact .inl ⟨h, hended⟩
    · exact .inr ⟨hsame, hsilent⟩
  · rw [acceptAll_of_not_running h]
    exact .inr ⟨rfl, rfl⟩

/-- Taking note of tokens changes nothing but the status and the completion. -/
theorem acceptAll_eq (e : Engine) (made : List (Nat × Token)) :
    ∃ status completion, (e.acceptAll made).1 = { e with status, completion } := by
  rcases e.acceptAll_cases made with ⟨-, x, -, hold, -, -, hended, -⟩ | ⟨hsame, -⟩
  · exact ⟨_, _, hended⟩
  · cases e
    exact ⟨_, _, hsame⟩

theorem slots_acceptAll (e : Engine) (made : List (Nat × Token)) :
    (e.acceptAll made).1.slots = e.slots := by
  obtain ⟨status, completion, h⟩ := e.acceptAll_eq made
  rw [h]

theorem holdings_acceptAll (e : Engine) (made : List (Nat × Token)) :
    (e.acceptAll made).1.holdings = e.holdings := by
  obtain ⟨status, completion, h⟩ := e.acceptAll_eq made
  rw [h]

theorem acceptAll_course {made : List (Nat × Token)} {s : Supply} {lore : Lore}
    (known : ∀ x ∈ made, x.2 ∈ lore) :
    Course ⟨e, s, lore⟩ (e.acceptAll made).2.2 ⟨(e.acceptAll made).1, s, lore⟩ := by
  rcases e.acceptAll_cases made with
    ⟨h, x, hx, hold, hat, hterminal, hended, hreport⟩ | ⟨hsame, hsilent⟩
  · rw [hended, hreport]
    refine Course.of_act (Act.ended ?_ hat hterminal (known x hx))
    exact h
  · rw [hsame, hsilent]
    exact .nil _

theorem mem_notices {place : Nat} {t : Token} {n : Notice} (h : n ∈ e.notices place t) :
    n.token = t := by
  obtain ⟨x, -, rfl⟩ := List.mem_map.1 h
  rfl

theorem consumers_mem {place i k : Nat} {slot : Slot} (hi : e.slots[i]? = some slot)
    (hk : slot.inputs[k]? = some place) : (i, k) ∈ e.consumers place := by
  refine List.mem_flatMap.2 ⟨(slot, i), ?_, ?_⟩
  · exact List.mem_zipIdx_iff_getElem?.2 hi
  · refine List.mem_map.2 ⟨(place, k), List.mem_filter.2 ⟨?_, by simp⟩, rfl⟩
    exact List.mem_zipIdx_iff_getElem?.2 hk

/-- Whoever reads a place is given notice of each token that comes into it. -/
theorem entries_le_marks (made : List (Nat × Token)) {i k p : Nat} {slot : Slot} (id : TokenId)
    (hi : e.slots[i]? = some slot) (hk : slot.inputs[k]? = some p) :
    (entries made).count (p, id) ≤
      (marks (made.flatMap fun x => e.notices x.1 x.2)).count (i, k, id) := by
  induction made with
  | nil => exact Nat.le_refl _
  | cons x rest ih =>
    have hcons : entries (x :: rest) = (x.1, x.2.id) ::ₘ entries rest := rfl
    rw [hcons, List.flatMap_cons, marks_append, Multiset.count_add]
    by_cases hx : (x.1, x.2.id) = (p, id)
    · rw [hx, Multiset.count_cons_self]
      obtain ⟨hplace, hid⟩ := Prod.mk.inj hx
      have hmem : (i, k, id) ∈ marks (e.notices x.1 x.2) := by
        refine Multiset.mem_coe.2 (List.mem_map.2 ⟨⟨i, k, x.2⟩, ?_, by rw [hid]⟩)
        exact List.mem_map.2 ⟨(i, k), consumers_mem hi (hplace ▸ hk), rfl⟩
      have hone := Multiset.one_le_count_iff_mem.2 hmem
      omega
    · rw [Multiset.count_cons_of_ne (Ne.symm hx)]
      omega

/-- Tokens of which note has been taken are no longer owed. -/
theorem Alert.acceptAll {skip asleep : List Nat} {owed made : List (Nat × Token)}
    {queue : List Notice} (h : e.Alert skip asleep (owed ++ made) queue)
    (still : (e.acceptAll made).1.status = .running) :
    (e.acceptAll made).1 = e ∧
      e.Alert skip asleep owed (queue ++ (e.acceptAll made).2.1) := by
  obtain ⟨hnotices, hcases⟩ := acceptAll_running h.brisk.running made
  rcases hcases with ⟨x, -, hold, -, -, hended, -⟩ | ⟨hsame, -, hordinary⟩
  · rw [hended] at still
    cases still
  refine ⟨hsame, ⟨{ h.brisk with unended := ?_, served := ?_ }, h.nested⟩⟩
  · intro p hold hat hterminal id
    have hbound := h.brisk.unended p hold hat hterminal id
    have hzero : (entries made).count (p, id) = 0 := by
      refine Multiset.count_eq_zero.2 fun hmem => ?_
      obtain ⟨x, hx, heq⟩ := List.mem_map.1 (Multiset.mem_coe.1 hmem)
      obtain ⟨rfl, -⟩ := Prod.mk.inj heq
      rw [hordinary x hx hold hat] at hterminal
      cases hterminal
    rw [entries_append, Multiset.count_add] at hbound
    omega
  · intro i slot hskip hat heager k p hk id
    have hbound := h.brisk.served i slot hskip hat heager k p hk id
    have hmarks := entries_le_marks made id hat hk
    rw [entries_append, Multiset.count_add] at hbound
    rw [hnotices, marks_append, Multiset.count_add]
    omega

/-- The net is complete or alert when note has been taken of what was owed. -/
theorem Alert.accepted {skip asleep : List Nat} {owed made : List (Nat × Token)}
    {queue : List Notice} (h : e.Alert skip asleep (owed ++ made) queue) :
    (e.acceptAll made).1.status = .completed ∨
      (e.acceptAll made).1.Alert skip asleep owed (queue ++ (e.acceptAll made).2.1) := by
  by_cases hstill : (e.acceptAll made).1.status = .running
  · obtain ⟨hsame, halert⟩ := h.acceptAll hstill
    rw [hsame]
    exact .inr halert
  · rcases (acceptAll_running h.brisk.running made).2 with
      ⟨x, -, hold, -, -, hended, -⟩ | ⟨hsame, -, -⟩
    · rw [hended]
      exact .inl rfl
    · rw [hsame] at hstill
      exact absurd h.brisk.running hstill

theorem notices_known {made : List (Nat × Token)} {lore : Lore}
    (known : ∀ x ∈ made, x.2 ∈ lore) : ∀ n ∈ (e.acceptAll made).2.1, n.token ∈ lore := by
  have hnotices : (e.acceptAll made).2.1 = made.flatMap fun x => e.notices x.1 x.2 := by
    by_cases h : e.status = .running
    · exact (acceptAll_running h made).1
    · rw [acceptAll_of_not_running h]
  intro n hn
  rw [hnotices] at hn
  obtain ⟨x, hx, hmem⟩ := List.mem_flatMap.1 hn
  rw [mem_notices hmem]
  exact known x hx

end Engine

/-- What an act says of the end of the run: it is the end, or it is not. -/
theorem Act.ending {sc sc' : Scene} {events : List Event} (h : Act sc events sc') :
    (∃ (place : Nat) (h : Holding) (t : Token), sc.engine.holdings[place]? = some h ∧ h.isTerminal = true ∧
      events = [.completed h.place.id t] ∧ sc'.engine.status = .completed ∧
      sc'.engine.completion = some (h.place.id, t)) ∨
    ((∀ e ∈ events, ¬ e.Final) ∧ sc'.engine.status ≠ .completed) := by
  cases h with
  | ended running stands terminal known =>
    exact .inl ⟨_, _, _, stands, terminal, rfl, rfl, rfl⟩
  | woken => exact .inr ⟨List.forall_mem_nil _, fun h => by cases h⟩
  | @fired _ _ slot _ _ _ running stands fires =>
    refine .inr ⟨fun e he => ?_, fun h => by cases running.symm.trans h⟩
    rcases List.mem_cons.1 he with rfl | hnote
    · exact id
    · generalize slot.transition = tr at fires
      cases fires with
      | begin =>
        obtain rfl := List.mem_singleton.1 hnote
        exact id
      | pass => cases hnote
      | routed => cases hnote
      | split => cases hnote
      | join => cases hnote
      | launch => cases hnote
  | seated running | refreshed running | released running | closed running =>
    exact .inr ⟨List.forall_mem_nil _, fun h => by cases running.symm.trans h⟩
  | botched running => exact .inr ⟨List.forall_mem_nil _, Engine.open_halt running⟩
  | refused running => exact .inr ⟨List.forall_mem_nil _, Engine.open_halt running⟩
  | balked running => exact .inr ⟨List.forall_mem_nil _, Engine.open_halt running⟩
  | sunk running => exact .inr ⟨List.forall_mem_nil _, Engine.open_halt running⟩
  | announced running =>
    refine .inr ⟨fun e he => ?_, fun h => by cases running.symm.trans h⟩
    obtain ⟨t, -, rfl⟩ := List.mem_map.1 he
    exact id
  | inside running =>
    refine .inr ⟨fun e he => ?_, fun h => by cases running.symm.trans h⟩
    obtain ⟨inner, -, hwithin⟩ := List.mem_filterMap.1 he
    exact Event.not_final_within hwithin

theorem Act.live {sc sc' : Scene} {events : List Event} (h : Act sc events sc') :
    sc.engine.status = .running ∨ sc.engine.status = .paused := by
  cases h <;> first | exact .inl ‹_› | exact .inr ‹_›

theorem Act.terminals {sc sc' : Scene} {events : List Event} (h : Act sc events sc') :
    sc'.engine.holdings.map (·.place) = sc.engine.holdings.map (·.place) := by
  have houtline := congrArg Engine.holdings h.outline
  have hplaces := congrArg (List.map (·.place)) houtline
  simpa [Engine.outline, List.map_map, Function.comp_def, Holding.new] using hplaces

/-- The completion of a net is the last thing that it reports, and it names a
terminal place. -/
theorem Course.ending {sc sc' : Scene} {events : List Event} (h : Course sc events sc')
    (hsc : sc.engine.status ≠ .completed) :
    (∃ front place t, events = front ++ [.completed place.id t] ∧ (∀ e ∈ front, ¬ e.Final) ∧
      place ∈ sc.engine.holdings.map (·.place) ∧ place.isTerminal = true ∧
      sc'.engine.status = .completed ∧ sc'.engine.completion = some (place.id, t)) ∨
    ((∀ e ∈ events, ¬ e.Final) ∧ sc'.engine.status ≠ .completed) := by
  induction h with
  | nil => exact .inr ⟨List.forall_mem_nil _, hsc⟩
  | @cons a b c first more act rest ih =>
    rcases act.ending with ⟨p, h, t, hat, hterminal, rfl, hdone, hcompletion⟩ | ⟨hquiet, hopen⟩
    · cases rest with
      | nil =>
        refine .inl ⟨[], h.place, t, rfl, List.forall_mem_nil _, ?_, hterminal, hdone,
          hcompletion⟩
        exact List.mem_map_of_mem (List.mem_of_getElem? hat)
      | cons act' =>
        rcases act'.live with hlive | hlive
        · cases hdone.symm.trans hlive
        · cases hdone.symm.trans hlive
    · rcases ih hopen with
        ⟨front, place, t, rfl, hfront, hplace, hend⟩ | ⟨hrest, hstill⟩
      · refine .inl ⟨first ++ front, place, t, by rw [List.append_assoc], fun e he => ?_,
          by rwa [act.terminals] at hplace, hend⟩
        rcases List.mem_append.1 he with he | he
        · exact hquiet e he
        · exact hfront e he
      · refine .inr ⟨fun e he => ?_, hstill⟩
        rcases List.mem_append.1 he with he | he
        · exact hquiet e he
        · exact hrest e he

end RecipeNet
