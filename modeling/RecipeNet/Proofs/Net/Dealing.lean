import RecipeNet.Proofs.Net.Ledger
import RecipeNet.Proofs.Net.Tally

/-!
What becomes of the tokens of a net, whatever its steps are fitted with. Most of what a net
does hands tokens on, and a split or a join puts other tokens into its output places in
exchange. A token is lost by mishaps only: the nested plan for which it was taken cannot be
built, the nested net that ran for it has ended where the step has no output, or it was taken by
a join that finds one of its siblings listed twice.
-/

namespace RecipeNet

def Transition.Vacant : Transition → Prop
  | .busy _ _ _ => False
  | _ => True

theorem Transition.Vacant.ledger {tr : Transition} (h : tr.Vacant) : tr.ledger = 0 := by
  cases tr with
  | busy => cases h
  | _ => rfl

/-- Something that is done with the tokens of a net or of a net within it, with what is reported
and what changes the books. -/
inductive Dealing : Engine → List Event → List Change → Engine → Prop
  | woken {e : Engine} (paused : e.status = .paused) :
    Dealing e [] [] { e.activate with status := .running }
  | moved {e : Engine} {i : Nat} {slot : Slot} {hs : List Holding} {tr : Transition}
      {events : List Event}
      (running : e.status = .running) (stands : e.slots[i]? = some slot)
      (vacant : slot.transition.Vacant) (remains : tr.Vacant)
      (outline : tr.outline = slot.transition.outline)
      (places : hs.map (·.place) = e.holdings.map (·.place))
      (about : ∀ event ∈ events, event.About slot.step)
      (kept : (e.become i hs tr).marking.ids = e.marking.ids) :
    Dealing e events [] (e.become i hs tr)
  | split {e : Engine} {i p : Nat} {slot : Slot} {hs : List Holding} {t u : Token}
      {made : List (Nat × Token)}
      (running : e.status = .running) (stands : e.slots[i]? = some slot)
      (kind : slot.transition = .split) (input : p ∈ slot.inputs) (same : u.id = t.id)
      (targets : made.map (·.1) = slot.outputs) (siblings : ∀ x ∈ made, x.2.parent = some t)
      (places : hs.map (·.place) = e.holdings.map (·.place))
      (balance : spread Holding.tokens hs + {(p, u)} =
        spread Holding.tokens e.holdings + (made : Multiset (Nat × Token))) :
    Dealing e [.fired (.ofStep slot.step)]
      [.split [] slot.step t.id (made.map (·.2.id) : List TokenId)] (e.become i hs .split)
  | join {e : Engine} {i j q inputs : Nat} {slot : Slot} {hs : List Holding}
      {pending : List Generation} {g : Generation} {taken : List (Nat × Token)}
      (running : e.status = .running) (stands : e.slots[i]? = some slot)
      (kind : slot.transition = .join inputs pending) (isPending : pending[j]? = some g)
      (complete : g.isComplete = true)
      (siblings : List.Forall₂ (fun x y => slot.inputs[x.1]? = some y.1 ∧ y.2.id = x.2.id)
        g.siblings taken)
      (target : slot.outputs[0]? = some q)
      (places : hs.map (·.place) = e.holdings.map (·.place))
      (balance : spread Holding.tokens hs + (taken : Multiset (Nat × Token)) =
        spread Holding.tokens e.holdings + {(q, g.parent)}) :
    Dealing e [.fired (.ofStep slot.step)]
      [.joined [] slot.step (g.siblings.map (·.2.id) : List TokenId) g.parent.id]
      (e.become i hs (.join inputs (pending.eraseIdx j)))
  | launched {e : Engine} {i : Nat} {slot : Slot} {hs : List Holding} {nest : Nest} {t start : Token}
      {child : Engine}
      (running : e.status = .running) (stands : e.slots[i]? = some slot)
      (idle : slot.transition = .idle nest)
      (built : Engine.build nest.fitter nest.plan = .ok child)
      (places : hs.map (·.place) = e.holdings.map (·.place))
      (kept : (e.become i hs (.busy nest t (child.entered start))).marking.ids = e.marking.ids) :
    Dealing e [.fired (.ofStep slot.step)] [.begun [slot.step] start.id]
      (e.become i hs (.busy nest t (child.entered start)))
  | closed {e : Engine} {i : Nat} {slot : Slot} {hs : List Holding} {nest : Nest} {t : Token}
      {child : Engine}
      (running : e.status = .running) (stands : e.slots[i]? = some slot)
      (busy : slot.transition = .busy nest t child) (ended : child.status = .completed)
      (places : hs.map (·.place) = e.holdings.map (·.place))
      (kept : (e.become i hs (.idle nest)).marking.ids = e.marking.ids) :
    Dealing e [] [.ended [slot.step] child.ledger] (e.become i hs (.idle nest))
  | ended {e : Engine} {h : Holding} {place : Nat} {t : Token} (running : e.status = .running)
      (stands : e.holdings[place]? = some h) (terminal : h.isTerminal = true) :
    Dealing e [.completed h.place.id t] []
      { e with status := .completed, completion := some (h.place.id, t) }
  | halted {e : Engine} {f : Fault} (running : e.status = .running) : Dealing e [] [] (e.halt f)
  | inside {e : Engine} {i : Nat} {slot : Slot} {nest : Nest} {t : Token} {child child' : Engine}
      {events : List Event} {changes : List Change}
      (running : e.status = .running) (stands : e.slots[i]? = some slot)
      (busy : slot.transition = .busy nest t child)
      (dealing : Dealing child events changes child') :
    Dealing e (events.filterMap (·.within slot.step)) (changes.map (·.within slot.step))
      (e.become i e.holdings (.busy nest t child'))

/-- Tokens are lost to a fault, by a net or by a net within it. -/
inductive Mishap : Engine → List Event → List Change → Loss → Engine → Prop
  | unbuilt {e : Engine} {i : Nat} {slot : Slot} {hs : List Holding} {nest : Nest} {t : Token}
      {f : Fault}
      (running : e.status = .running) (stands : e.slots[i]? = some slot)
      (idle : slot.transition = .idle nest)
      (fails : Engine.build nest.fitter nest.plan = .error f)
      (places : hs.map (·.place) = e.holdings.map (·.place))
      (lost : (e.become i hs (.idle nest)).marking.ids + {t.id} = e.marking.ids) :
    Mishap e [.fired (.ofStep slot.step)] [] ⟨f, [], {t.id}⟩ (e.become i hs (.idle nest))
  | misdirected {e : Engine} {i output : Nat} {slot : Slot} {nest : Nest} {t u : Token}
      {child : Engine} {place : String}
      (running : e.status = .running) (stands : e.slots[i]? = some slot)
      (busy : slot.transition = .busy nest t child)
      (completion : child.completion = some (place, u))
      (mapped : nest.outputs.output? place = some output)
      (missing : slot.outputs[output]? = none) :
    Mishap e [] [.ended [slot.step] child.ledger]
      ⟨.noSuchOutput slot.step output slot.outputs.length, [], {t.id}⟩ (e.become i e.holdings (.idle nest))
  | jammed {e : Engine} {i j inputs : Nat} {slot : Slot} {pending : List Generation} {g : Generation}
      {r r' : Reaction} {place : String} {id : TokenId} {tokens : Multiset TokenId}
      (running : e.status = .running) (stands : e.slots[i]? = some slot)
      (kind : slot.transition = .join inputs pending) (isPending : pending[j]? = some g)
      (complete : g.isComplete = true) (sees : r.Sees e slot)
      (held : ∀ x ∈ g.siblings, r.holds x.1 x.2 = true)
      (twice : r.consume g.siblings = (r', .error (.tokenNotHeld place id)))
      (some_lost : tokens ≠ 0)
      (lost : (e.become i r'.holdings (.join inputs (pending.eraseIdx j))).marking.ids + tokens =
        e.marking.ids) :
    Mishap e [] [] ⟨.tokenNotHeld place id, [], tokens⟩
      (e.become i r'.holdings (.join inputs (pending.eraseIdx j)))
  | inside {e : Engine} {i : Nat} {slot : Slot} {nest : Nest} {t : Token} {child child' : Engine}
      {events : List Event} {changes : List Change} {loss : Loss}
      (running : e.status = .running) (stands : e.slots[i]? = some slot)
      (busy : slot.transition = .busy nest t child)
      (mishap : Mishap child events changes loss child') :
    Mishap e (events.filterMap (·.within slot.step)) (changes.map (·.within slot.step))
      (loss.within slot.step) (e.become i e.holdings (.busy nest t child'))

/-- Dealings one after the other, with one mishap at most. -/
inductive Dealings : Engine → List Event → List Change → Option Loss → Engine → Prop
  | nil (e : Engine) : Dealings e [] [] none e
  | cons {a b c : Engine} {events more : List Event} {changes others : List Change}
      {loss : Option Loss} (dealing : Dealing a events changes b)
      (rest : Dealings b more others loss c) :
    Dealings a (events ++ more) (changes ++ others) loss c
  | spoilt {a b c : Engine} {events more : List Event} {changes others : List Change} {loss : Loss}
      (mishap : Mishap a events changes loss b) (rest : Dealings b more others none c) :
    Dealings a (events ++ more) (changes ++ others) (some loss) c

theorem ids_of_forall₂ {places : List Nat} {xs ys : List (Nat × Token)}
    (h : List.Forall₂ (fun x y => places[x.1]? = some y.1 ∧ y.2.id = x.2.id) xs ys) :
    xs.map (·.2.id) = ys.map (·.2.id) := by
  induction h with
  | nil => rfl
  | cons hxy _ ih => rw [List.map_cons, List.map_cons, ih, hxy.2]

namespace Engine

/-- A net that has come of one that was built, by whatever fitter. -/
def Founded (e : Engine) : Prop := ∃ fitter plan, build fitter plan = .ok e.outline

section

variable {e e' : Engine} {slot : Slot}

theorem Founded.of_outline (h : e.Founded) (same : e'.outline = e.outline) : e'.Founded := by
  obtain ⟨fitter, plan, hbuild⟩ := h
  exact ⟨fitter, plan, same ▸ hbuild⟩

/-- A net that has just been built is founded, and so is the net when it has started. -/
theorem founded_of_build {fitter : Fitter} {plan : Plan} (h : build fitter plan = .ok e) :
    e.Throughout Founded := by
  refine .intro ⟨fitter, plan, ?_⟩ fun slot hs nest t child busy => ?_
  · rwa [outline_of_build h]
  · exact absurd busy ((built_of_build h).vacant hs nest t child)

theorem founded_entered (founded : e.Throughout Founded) (t : Token) :
    (e.entered t).Throughout Founded :=
  founded.of_slots (founded.here.of_outline (outline_entered e t)) fun _ hs => mem_activate hs

/-- The connectors of the steps of a net are positions of its places. -/
theorem Founded.connectors (h : e.Founded) (hs : slot ∈ e.slots) :
    (∀ p ∈ slot.inputs, p < e.holdings.length) ∧ ∀ p ∈ slot.outputs, p < e.holdings.length := by
  obtain ⟨fitter, plan, hbuild⟩ := h
  exact connectors_of_build hbuild hs

end

end Engine

namespace Dealing

variable {e e' : Engine} {events : List Event} {changes : List Change}

/-- Whatever is done with the tokens of a net, it stays the net of its plan. -/
theorem outline (h : Dealing e events changes e') : e'.outline = e.outline := by
  cases h with
  | woken => exact Engine.outline_activate e
  | moved running stands vacant remains outline places => exact Engine.outline_become stands places outline
  | split running stands kind input same targets siblings places =>
    exact Engine.outline_become stands places (by rw [kind])
  | join running stands kind isPending complete siblings target places =>
    exact Engine.outline_become stands places (by rw [kind]; rfl)
  | launched running stands idle built places =>
    exact Engine.outline_become stands places (by rw [idle]; rfl)
  | closed running stands busy ended places =>
    exact Engine.outline_become stands places (by rw [busy]; rfl)
  | ended => rfl
  | halted => exact Engine.outline_halt e _
  | inside running stands busy => exact Engine.outline_become stands rfl (by rw [busy]; rfl)

theorem founded (h : Dealing e events changes e') (founded : e.Throughout Engine.Founded) :
    e'.Throughout Engine.Founded := by
  have here := founded.here.of_outline h.outline
  induction h with
  | woken => exact founded.of_slots here fun slot hs => Engine.mem_activate hs
  | moved running stands vacant remains =>
    refine founded.become here fun _ _ _ hbusy => ?_
    subst hbusy
    cases remains
  | split => exact founded.become here nofun
  | join => exact founded.become here nofun
  | launched running stands idle built =>
    refine founded.become here fun _ _ _ hbusy => ?_
    cases hbusy
    exact (Engine.founded_entered (Engine.founded_of_build built) _)
  | closed => exact founded.become here nofun
  | ended => exact founded.of_slots here fun slot hs => ⟨slot, hs, rfl⟩
  | halted => exact founded.of_slots here fun slot hs => ⟨slot, Engine.slots_halt _ _ ▸ hs, rfl⟩
  | inside running stands busy dealing ih =>
    refine founded.become here fun _ _ _ hbusy => ?_
    cases hbusy
    have hchild := founded.child (List.mem_of_getElem? stands) busy
    exact ih hchild (hchild.here.of_outline dealing.outline)

/-- The books of a net balance, whatever is done with its tokens. -/
theorem balance (h : Dealing e events changes e') :
    e'.ledger + Change.totalTaken changes = e.ledger + Change.totalMade changes := by
  have hsame : ∀ {l l' : Ledger}, l' = l → l' + Change.totalTaken [] = l + Change.totalMade [] :=
    fun h => congrArg (· + 0) h
  -- Splits, joins, launches and ends of nets within are entered; all else only moves tokens.
  induction h with
  | woken => exact hsame (Engine.ledger_activate _ .running)
  | moved running stands vacant remains outline places about kept =>
    exact hsame (Engine.ledger_kept stands kept (by rw [vacant.ledger, remains.ledger]))
  | @split e i p slot hs t u made running stands kind input same targets siblings places balance =>
    have hids := congrArg (Multiset.map (·.2.id)) balance
    simp only [Multiset.map_add, Multiset.map_singleton, same, Multiset.map_coe] at hids
    rw [Change.totalTaken_singleton, Change.totalMade_singleton]
    refine Engine.ledger_own stands (Engine.ids_become stands ?_) (by rw [kind])
    rw [kind, add_right_comm, Holding.ids, hids, add_right_comm]
    rfl
  | @join e i j q inputs slot hs pending g taken running stands kind isPending complete siblings target
      places balance =>
    have hids := congrArg (Multiset.map (·.2.id)) balance
    have htaken := ids_of_forall₂ siblings
    simp only [Multiset.map_add, Multiset.map_singleton, Multiset.map_coe] at hids
    rw [Change.totalTaken_singleton, Change.totalMade_singleton]
    refine Engine.ledger_own stands (Engine.ids_become stands ?_) (by rw [kind]; rfl)
    rw [htaken, kind, add_right_comm, Holding.ids, hids, add_right_comm]
    rfl
  | @launched e i slot hs nest t start child running stands idle built places kept =>
    have hb := Engine.built_of_build built
    have hinner : (Transition.busy nest t (child.entered start)).ledger + 0 =
        slot.transition.ledger + Ledger.own {start.id} := by
      rw [idle, add_zero]
      exact (Engine.ledger_entered hb.startPlace_lt start).trans (congrArg (· + _) hb.ledger)
    have hledger := Engine.ledger_inner stands kept hinner
    rw [Ledger.within_zero] at hledger
    rw [Change.totalTaken_singleton, Change.totalMade_singleton]
    exact hledger
  | @closed e i slot hs nest t child running stands busy ended places kept =>
    have hinner : (Transition.idle nest).ledger + child.ledger = slot.transition.ledger + 0 := by
      rw [busy, add_zero]
      exact zero_add _
    have hledger := Engine.ledger_inner stands kept hinner
    rw [Ledger.within_zero] at hledger
    rw [Change.totalTaken_singleton, Change.totalMade_singleton]
    exact hledger
  | ended => exact hsame (Engine.ledger_same rfl rfl)
  | halted => exact hsame (Engine.ledger_halt _ _)
  | @inside e i slot nest t child child' events changes running stands busy dealing ih =>
    rw [Change.totalTaken_within, Change.totalMade_within]
    refine Engine.ledger_inner stands (Engine.ids_kept stands (by rw [busy]; rfl)) ?_
    rw [busy]
    exact ih

theorem live (h : Dealing e events changes e') : e.status = .running ∨ e.status = .paused := by
  cases h <;> first | exact .inl ‹_› | exact .inr ‹_›

/-- A net is not new any more when something has been done with its tokens. -/
theorem not_created (h : Dealing e events changes e') : e'.status ≠ .created := by
  have hrunning : ∀ {e : Engine}, e.status = .running → e.status ≠ .created :=
    fun hstatus hcreated => by cases hstatus.symm.trans hcreated
  cases h with
  | woken | ended => exact nofun
  | @halted _ f running =>
    by_cases hhalts : f.halts = true
    · rw [(Engine.status_halt hhalts running).1]
      exact nofun
    · rw [Engine.halt, if_neg hhalts]
      exact hrunning running
  | _ => exact hrunning ‹_›

/-- What a dealing says of the end of the run: it is the end, or it says nothing. -/
theorem ending (h : Dealing e events changes e') :
    (∃ place u, events = [.completed place u] ∧ e'.status = .completed ∧
      e'.completion = some (place, u)) ∨ ∀ event ∈ events, ¬ event.Final := by
  cases h with
  | ended => exact .inl ⟨_, _, rfl, rfl, rfl⟩
  | moved running stands vacant remains outline places about =>
    refine .inr fun event he => ?_
    cases about event he with
    | fired | started => exact id
  | split | join | launched => exact .inr (List.forall_mem_singleton.2 id)
  | woken | closed | halted => exact .inr (List.forall_mem_nil _)
  | inside =>
    refine .inr fun event he => ?_
    obtain ⟨inner, -, hwithin⟩ := List.mem_filterMap.1 he
    exact Event.not_final_within hwithin

/-- Whatever changes the books is reported as a firing, except the end of a nested net. -/
theorem fires (h : Dealing e events changes e') :
    ∀ change ∈ changes, ∀ step ∈ change.firing?, .fired step ∈ events := by
  induction h with
  | split | join | launched =>
    refine List.forall_mem_singleton.2 fun step hstep => ?_
    obtain rfl := Option.mem_some.1 hstep
    exact List.mem_singleton_self _
  | closed => exact List.forall_mem_singleton.2 nofun
  | inside running stands busy dealing ih => exact Change.fires_within ih
  | _ => exact List.forall_mem_nil _

end Dealing

namespace Mishap

variable {e e' : Engine} {events : List Event} {changes : List Change} {loss : Loss}

theorem outline (h : Mishap e events changes loss e') : e'.outline = e.outline := by
  cases h with
  | unbuilt running stands idle fails places =>
    exact Engine.outline_become stands places (by rw [idle])
  | misdirected running stands busy => exact Engine.outline_become stands rfl (by rw [busy]; rfl)
  | jammed running stands kind isPending complete sees held twice =>
    refine Engine.outline_become stands ?_ (by rw [kind]; rfl)
    rw [(Reaction.consume_follows twice).places, sees.holdings]
  | inside running stands busy => exact Engine.outline_become stands rfl (by rw [busy]; rfl)

theorem founded (h : Mishap e events changes loss e') (founded : e.Throughout Engine.Founded) :
    e'.Throughout Engine.Founded := by
  have here := founded.here.of_outline h.outline
  induction h with
  | unbuilt | misdirected | jammed => exact founded.become here nofun
  | inside running stands busy mishap ih =>
    refine founded.become here fun _ _ _ hbusy => ?_
    cases hbusy
    have hchild := founded.child (List.mem_of_getElem? stands) busy
    exact ih hchild (hchild.here.of_outline mishap.outline)

theorem balance (h : Mishap e events changes loss e') :
    e'.ledger + Change.totalTaken changes + Loss.ledger (some loss) =
      e.ledger + Change.totalMade changes := by
  -- a step in which no net runs loses tokens of its net
  have hvacant : ∀ {e : Engine} {i : Nat} {slot : Slot} {hs : List Holding} {tr : Transition}
      {f : Fault} {tokens : Multiset TokenId}, e.slots[i]? = some slot → slot.transition.Vacant →
      tr.Vacant → (e.become i hs tr).marking.ids + tokens = e.marking.ids →
      (e.become i hs tr).ledger + Change.totalTaken [] + Loss.ledger (some ⟨f, [], tokens⟩) =
        e.ledger + Change.totalMade [] := by
    intro e i slot hs tr f tokens stands vacant remains lost
    have hledger := Engine.ledger_own stands (lost.trans (add_zero _).symm)
      (remains.ledger.trans vacant.ledger.symm)
    rw [Ledger.own_zero] at hledger
    exact (congrArg (· + _) (add_zero _)).trans hledger
  induction h with
  | unbuilt running stands idle fails places lost =>
    exact hvacant stands (by rw [idle]; trivial) (by trivial) lost
  | @misdirected e i output slot nest t u child place running stands busy =>
    have hown : (e.become i e.holdings (.idle nest)).marking.ids + {t.id} = e.marking.ids + 0 := by
      refine Engine.ids_become stands ?_
      rw [busy, add_zero]
      exact congrArg (· + _) (add_zero _)
    have hinner : (Transition.idle nest).ledger + child.ledger = slot.transition.ledger + 0 := by
      rw [busy, add_zero]
      exact zero_add _
    have hledger := Engine.ledger_become stands hown hinner
    rw [Ledger.own_zero, Ledger.within_zero, add_comm (Ledger.own {t.id}), ← add_assoc] at hledger
    rw [Change.totalTaken_singleton, Change.totalMade_singleton]
    exact hledger.trans (congrArg (e.ledger + ·) (zero_add 0))
  | jammed running stands kind isPending complete sees held twice some_lost lost =>
    exact hvacant stands (by rw [kind]; trivial) (by trivial) lost
  | @inside e i slot nest t child child' events changes loss running stands busy mishap ih =>
    rw [Change.totalTaken_within, Change.totalMade_within, add_assoc]
    refine (congrArg (_ + ·) (Ledger.within_add slot.step _ (Loss.ledger (some loss))).symm).trans ?_
    refine Engine.ledger_inner stands (Engine.ids_kept stands (by rw [busy]; rfl)) ?_
    rw [busy, ← add_assoc]
    exact ih

theorem fires (h : Mishap e events changes loss e') :
    ∀ change ∈ changes, ∀ step ∈ change.firing?, .fired step ∈ events := by
  induction h with
  | unbuilt | jammed => exact List.forall_mem_nil _
  | misdirected => exact List.forall_mem_singleton.2 nofun
  | inside running stands busy mishap ih => exact Change.fires_within ih

theorem live (h : Mishap e events changes loss e') : e.status = .running := by
  cases h <;> assumption

theorem not_created (h : Mishap e events changes loss e') : e'.status ≠ .created := by
  have hsame : e'.status = e.status := by cases h <;> rfl
  rw [hsame, h.live]
  exact nofun

theorem silent (h : Mishap e events changes loss e') : ∀ event ∈ events, ¬ event.Final := by
  cases h with
  | unbuilt => exact List.forall_mem_singleton.2 id
  | misdirected | jammed => exact List.forall_mem_nil _
  | inside =>
    intro event he
    obtain ⟨inner, -, hwithin⟩ := List.mem_filterMap.1 he
    exact Event.not_final_within hwithin

/-- A mishap is one only if a token is lost. -/
theorem tokens_ne_zero (h : Mishap e events changes loss e') : loss.tokens ≠ 0 := by
  induction h with
  | unbuilt | misdirected => exact Multiset.singleton_ne_zero _
  | jammed running stands kind isPending complete sees held twice some_lost => exact some_lost
  | inside running stands busy mishap ih => exact ih

end Mishap

namespace Dealings

variable {a b c : Engine} {events more : List Event} {changes others : List Change}
  {loss : Option Loss}

theorem of_dealing (h : Dealing a events changes b) : Dealings a events changes none b := by
  simpa only [List.append_nil] using Dealings.cons h (.nil b)

theorem of_mishap {lost : Loss} (h : Mishap a events changes lost b) :
    Dealings a events changes (some lost) b := by
  simpa only [List.append_nil] using Dealings.spoilt h (.nil b)

/-- What goes on after dealings without a mishap. -/
theorem andThen (hab : Dealings a events changes none b) (hbc : Dealings b more others loss c) :
    Dealings a (events ++ more) (changes ++ others) loss c := by
  generalize hnone : (none : Option Loss) = first at hab
  induction hab with
  | nil => exact hbc
  | cons dealing _ ih =>
    rw [List.append_assoc, List.append_assoc]
    exact .cons dealing (ih hbc hnone)
  | spoilt => cases hnone

/-- What goes on after dealings that may have had their mishap. -/
theorem trans (hab : Dealings a events changes loss b) (hbc : Dealings b more others none c) :
    Dealings a (events ++ more) (changes ++ others) loss c := by
  induction hab with
  | nil => exact hbc
  | cons dealing _ ih =>
    rw [List.append_assoc, List.append_assoc]
    exact .cons dealing (ih hbc)
  | spoilt mishap _ ih =>
    rw [List.append_assoc, List.append_assoc]
    exact .spoilt mishap (ih hbc)

theorem founded (h : Dealings a events changes loss b) (founded : a.Throughout Engine.Founded) :
    b.Throughout Engine.Founded := by
  induction h with
  | nil => exact founded
  | cons dealing _ ih => exact ih (dealing.founded founded)
  | spoilt mishap _ ih => exact ih (mishap.founded founded)

/-- The books of a net balance, up to what is lost. -/
theorem balance (h : Dealings a events changes loss b) :
    b.ledger + Change.totalTaken changes + Loss.ledger loss = a.ledger + Change.totalMade changes := by
  induction h with
  | nil => exact add_zero _
  | @cons a b c events more changes others loss dealing rest ih =>
    calc
      _ = c.ledger + Change.totalTaken others + Loss.ledger loss + Change.totalTaken changes := by
        rw [Change.totalTaken_append]
        abel
      _ = b.ledger + Change.totalTaken changes + Change.totalMade others := by
        rw [ih, add_right_comm]
      _ = _ := by rw [dealing.balance, Change.totalMade_append, add_assoc]
  | @spoilt a b c events more changes others loss mishap rest ih =>
    have hrest : c.ledger + Change.totalTaken others = b.ledger + Change.totalMade others :=
      (add_zero _).symm.trans ih
    calc
      _ = c.ledger + Change.totalTaken others + Change.totalTaken changes + Loss.ledger (some loss) := by
        rw [Change.totalTaken_append]
        abel
      _ = b.ledger + Change.totalTaken changes + Loss.ledger (some loss) + Change.totalMade others := by
        rw [hrest]
        abel
      _ = _ := by rw [mishap.balance, Change.totalMade_append, add_assoc]

/-- Whatever changes the books is reported as a firing, except the end of a nested net. -/
theorem fires (h : Dealings a events changes loss b) :
    ∀ change ∈ changes, ∀ step ∈ change.firing?, .fired step ∈ events := by
  induction h with
  | nil => exact List.forall_mem_nil _
  | cons dealing rest ih => exact Change.fires_append dealing.fires ih
  | spoilt mishap rest ih => exact Change.fires_append mishap.fires ih

theorem tokens_ne_zero {lost : Loss} (h : Dealings a events changes (some lost) b) :
    lost.tokens ≠ 0 := by
  generalize hloss : some lost = loss at h
  induction h with
  | nil => cases hloss
  | cons _ _ ih => exact ih hloss
  | spoilt mishap =>
    obtain rfl := Option.some.inj hloss
    exact mishap.tokens_ne_zero

/-- A net with which something is done is at work. -/
theorem live (h : Dealings a events changes loss b) :
    a.status = .running ∨ a.status = .paused ∨ events = [] ∧ b = a := by
  cases h with
  | nil => exact .inr (.inr ⟨rfl, rfl⟩)
  | cons dealing => exact dealing.live.imp id .inl
  | spoilt mishap => exact .inl mishap.live

/-- A net with whose tokens nothing has been done is the same, and any other is not new. -/
theorem not_created (h : Dealings a events changes loss b) : b = a ∨ b.status ≠ .created := by
  induction h with
  | nil => exact .inl rfl
  | cons dealing _ ih => exact .inr (ih.elim (fun hsame => hsame ▸ dealing.not_created) id)
  | spoilt mishap _ ih => exact .inr (ih.elim (fun hsame => hsame ▸ mishap.not_created) id)

/-- The completion of a net is the last thing that it reports. -/
theorem ending (h : Dealings a events changes loss b) :
    (∃ front place u, events = front ++ [.completed place u] ∧ (∀ event ∈ front, ¬ event.Final) ∧
      b.status = .completed ∧ b.completion = some (place, u)) ∨ ∀ event ∈ events, ¬ event.Final := by
  have hlater : ∀ {first more : List Event} {b : Engine}, (∀ event ∈ first, ¬ event.Final) →
      ((∃ front place u, more = front ++ [.completed place u] ∧ (∀ event ∈ front, ¬ event.Final) ∧
        b.status = .completed ∧ b.completion = some (place, u)) ∨ ∀ event ∈ more, ¬ event.Final) →
      (∃ front place u, first ++ more = front ++ [.completed place u] ∧
        (∀ event ∈ front, ¬ event.Final) ∧ b.status = .completed ∧
        b.completion = some (place, u)) ∨ ∀ event ∈ first ++ more, ¬ event.Final := by
    rintro first more b hfirst (⟨front, place, u, rfl, hfront, hend⟩ | hmore)
    · exact .inl ⟨first ++ front, place, u, (List.append_assoc _ _ _).symm,
        List.forall_mem_append.2 ⟨hfirst, hfront⟩, hend⟩
    · exact .inr (List.forall_mem_append.2 ⟨hfirst, hmore⟩)
  induction h with
  | nil => exact .inr (List.forall_mem_nil _)
  | cons dealing rest ih =>
    rcases dealing.ending with ⟨place, u, rfl, hstatus, hcompletion⟩ | hquiet
    · rcases rest.live with hlive | hlive | ⟨rfl, rfl⟩
      · cases hstatus.symm.trans hlive
      · cases hstatus.symm.trans hlive
      · exact .inl ⟨[], place, u, rfl, List.forall_mem_nil _, hstatus, hcompletion⟩
    · exact hlater hquiet ih
  | spoilt mishap rest ih => exact hlater mishap.silent ih

/-- What is done with the tokens of a nested net is done within the net around it. -/
theorem inside (h : Dealings a events changes loss b) {e : Engine} {i : Nat} {slot : Slot}
    {nest : Nest} {t : Token} (running : e.status = .running) (stands : e.slots[i]? = some slot)
    (busy : slot.transition = .busy nest t a) :
    Dealings e (events.filterMap (·.within slot.step)) (changes.map (·.within slot.step))
      (loss.map (·.within slot.step)) (e.become i e.holdings (.busy nest t b)) := by
  induction h generalizing e slot with
  | nil a =>
    have hself := Engine.become_self stands
    rw [busy] at hself
    rw [hself]
    exact .nil e
  | @cons a b c events more changes others loss dealing rest ih =>
    have hstands := Engine.become_slot e.holdings (.busy nest t b) stands
    have hrest := ih (e := e.become i e.holdings (.busy nest t b)) running hstands rfl
    rw [Engine.become_become] at hrest
    rw [List.filterMap_append, List.map_append]
    exact .cons (.inside running stands busy dealing) hrest
  | @spoilt a b c events more changes others loss mishap rest ih =>
    have hstands := Engine.become_slot e.holdings (.busy nest t b) stands
    have hrest := ih (e := e.become i e.holdings (.busy nest t b)) running hstands rfl
    rw [Engine.become_become] at hrest
    rw [List.filterMap_append, List.map_append]
    exact .spoilt (.inside running stands busy mishap) hrest

end Dealings

end RecipeNet
