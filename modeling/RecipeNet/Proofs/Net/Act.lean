import Mathlib.Data.Set.Basic
import RecipeNet.Net.Cascade
import RecipeNet.Proofs.Net.Fitting
import RecipeNet.Snapshot.Capture

/-!
The acts of a net. Whatever a cascade does to a net and to those within it is a
sequence of acts, each of which concerns one step at one depth: a firing, a
sibling noted by a join, a token given back by a task or by a nested net, a
refusal, the end of the run. Invariants are shown act by act. A scene carries
the lore of its net, which is every token that has been seen there or in a net
within; it serves proofs only and tells which tokens a notice can speak of.
-/

namespace RecipeNet

/-- Tokens that are known in a net and in those within it, by the steps that
lead there. -/
def Lore := List String → Set Token

namespace Lore

instance : Membership Token Lore := ⟨fun lore t => t ∈ lore []⟩

instance : LE Lore := ⟨fun lore lore' => ∀ path, lore path ⊆ lore' path⟩

def below (lore : Lore) (step : String) : Lore := fun path => lore (step :: path)

def graft (lore : Lore) (step : String) (inner : Lore) : Lore
  | [] => lore []
  | head :: path => if head = step then inner path else lore (head :: path)

def grow (lore : Lore) (step : String) (fresh inner : List Token) : Lore := fun path =>
  lore path ∪ {t | (path = [] ∧ t ∈ fresh) ∨ (path = [step] ∧ t ∈ inner)}

variable {lore lore' : Lore} {step : String} {fresh inner : List Token} {t : Token}

theorem mem_grow : t ∈ lore.grow step fresh inner ↔ t ∈ lore ∨ t ∈ fresh := by
  constructor
  · rintro (hold | ⟨-, hnew⟩ | ⟨hpath, -⟩)
    · exact .inl hold
    · exact .inr hnew
    · cases hpath
  · rintro (hold | hnew)
    · exact .inl hold
    · exact .inr (.inl ⟨rfl, hnew⟩)

theorem mem_grow_below : t ∈ (lore.grow step fresh inner).below step ↔
    t ∈ lore.below step ∨ t ∈ inner := by
  constructor
  · rintro (hold | ⟨hpath, -⟩ | ⟨-, hnew⟩)
    · exact .inl hold
    · cases hpath
    · exact .inr hnew
  · rintro (hold | hnew)
    · exact .inl hold
    · exact .inr (.inr ⟨rfl, hnew⟩)

theorem le_grow (lore : Lore) (step : String) (fresh inner : List Token) :
    lore ≤ lore.grow step fresh inner :=
  fun _ _ h => .inl h

theorem below_le (h : lore ≤ lore') (step : String) : lore.below step ≤ lore'.below step :=
  fun path => h (step :: path)

theorem le_graft {inner : Lore} (h : lore.below step ≤ inner) : lore ≤ lore.graft step inner := by
  intro path
  cases path with
  | nil => exact subset_rfl
  | cons head path =>
    intro t ht
    change t ∈ if head = step then inner path else lore (head :: path)
    by_cases hhead : head = step
    · subst hhead
      rw [if_pos rfl]
      exact h path ht
    · rw [if_neg hhead]
      exact ht

theorem below_graft (lore : Lore) (step : String) (inner : Lore) :
    (lore.graft step inner).below step = inner := by
  funext path
  exact if_pos rfl

theorem graft_graft (lore : Lore) (step : String) (first last : Lore) :
    (lore.graft step first).graft step last = lore.graft step last := by
  funext path
  cases path with
  | nil => rfl
  | cons head path =>
    change (if head = step then last path else if head = step then first path else _) =
      if head = step then last path else _
    by_cases hhead : head = step
    · rw [if_pos hhead, if_pos hhead]
    · rw [if_neg hhead, if_neg hhead, if_neg hhead]

theorem graft_below (lore : Lore) (step : String) : lore.graft step (lore.below step) = lore := by
  funext path
  cases path with
  | nil => rfl
  | cons head path =>
    change (if head = step then lore (step :: path) else lore (head :: path)) = _
    by_cases hhead : head = step
    · rw [if_pos hhead, hhead]
    · rw [if_neg hhead]

end Lore

/-- A net at work, its supply of identities, and the tokens seen so far. -/
structure Scene where
  engine : Engine
  supply : Supply
  lore : Lore

/-- The tokens that a transition keeps, be it in custody or as a note. -/
def Transition.tokens : Transition → List Token
  | .join _ pending => pending.flatMap (·.tokens)
  | .task _ held => held
  | .busy _ t _ => [t]
  | _ => []

/-- What a step sees of its net, whatever it has done before. -/
structure Reaction.Sees (r : Reaction) (e : Engine) (slot : Slot) : Prop where
  step : r.step = slot.step
  inputs : r.inputs = slot.inputs
  outputs : r.outputs = slot.outputs
  holdings : r.holdings = e.holdings

structure Firing where
  taken : List (Nat × Token)
  made : List (Nat × Token)
  notes : List Event
  after : Transition
  supply : Supply
  /-- The new tokens of the net, and of the net that the step runs. -/
  fresh : List Token
  inner : List Token

def Token.siblings (t : Token) (ids : List TokenId) : List (Nat × Token) :=
  ids.zipIdx.map fun (id, output) => (output, ⟨id, none, some t⟩)

theorem Token.siblings_targets (t : Token) {ids : List TokenId} {outputs : List Nat}
    (enough : ids.length ≤ outputs.length) :
    ∀ e ∈ t.siblings ids, ∃ place, outputs[e.1]? = some place := by
  intro e he
  obtain ⟨⟨id, output⟩, hmem, rfl⟩ := List.mem_map.1 he
  exact ⟨_, List.getElem?_eq_getElem ((List.snd_lt_of_mem_zipIdx hmem).trans_le enough)⟩

def Engine.startPlace (e : Engine) : Nat :=
  (e.holdings.findIdx? (·.place.role == .start)).getD 0

/-- A new net with its start token, of which nobody has been told yet. -/
def Engine.entered (e : Engine) (t : Token) : Engine :=
  { e.activate with
    status := .running, holdings := e.holdings.modify e.startPlace (·.add t) }

theorem Engine.enter_created {e : Engine} (h : e.status = .created) (t : Token) :
    e.enter t = .ok ((e.entered t).acceptAll [(e.startPlace, t)]) := by
  rw [enter, if_pos h]
  rfl

/-- How the transition of a named step with some number of outputs may fire. -/
inductive Transition.Fires (step : String) (outs : Nat) (s : Supply) : Transition → Firing → Prop
  | pass (output input : Nat) (t : Token) :
    Fires step outs s (.pass output) ⟨[(input, t)], [(output, t)], [], .pass output, s, [], []⟩
  | routed (rule : List Token → Token → Except String Nat) (seen : List Token)
      (input output : Nat) (t : Token) (routes : rule seen t = .ok output) :
    Fires step outs s (.routed rule seen)
      ⟨[(input, t)], [(output, t)], [], .routed rule (seen ++ [t]), s, [], []⟩
  | split (input : Nat) (t : Token) :
    Fires step outs s .split
      ⟨[(input, t)], t.siblings (s.take outs).1, [], .split, (s.take outs).2,
        (t.siblings (s.take outs).1).map (·.2), []⟩
  | join (inputs : Nat) (pending : List Generation) (j : Nat) (g : Generation)
      (isPending : pending[j]? = some g) (complete : g.isComplete = true) :
    Fires step outs s (.join inputs pending)
      ⟨g.siblings, [(0, g.parent)], [], .join inputs (pending.eraseIdx j), s, [], []⟩
  | begin (activity : String) (held : List Token) (input : Nat) (t : Token) :
    Fires step outs s (.task activity held)
      ⟨[(input, t)], [], [.started (.ofStep step) activity t], .task activity (held ++ [t]), s,
        [], []⟩
  | launch (nest : Nest) (child : Engine) (t : Token)
      (built : Engine.build nest.fitter nest.plan = .ok child) :
    Fires step outs s (.idle nest)
      ⟨[(0, t)], [], [], .busy nest t (child.entered (Nest.startToken t s).1),
        (Nest.startToken t s).2, [], [(Nest.startToken t s).1]⟩

inductive Join.Refuses (pending : List Generation) (r : Reaction) (input : Nat) (t : Token) :
    Surprise → Prop
  | whole (notSplit : t.parent = none) : Refuses pending r input t .notSplit
  | narrow (parent : Token) (j : Nat) (g : Generation) (isSplit : t.parent = some parent)
      (located : pending.findIdx? (fun g => g.parent.same parent) = some j)
      (isPending : pending[j]? = some g) (outside : g.slots[input]? = none) :
    Refuses pending r input t (.noSlot g.slots.length input)
  | taken (parent : Token) (j : Nat) (g : Generation) (held : Token)
      (isSplit : t.parent = some parent)
      (located : pending.findIdx? (fun g => g.parent.same parent) = some j)
      (isPending : pending[j]? = some g) (occupied : g.slots[input]? = some (some held))
      (unseen : g.buffers t = false) (full : g.freeSlot? r t = none) :
    Refuses pending r input t (.taken input held.id g.parent.id)

/-- One act of a net or of a net within it, with what is reported. -/
inductive Act : Scene → List Event → Scene → Prop
  | woken {sc : Scene} (paused : sc.engine.status = .paused) :
    Act sc [] ⟨{ sc.engine.activate with status := .running }, sc.supply, sc.lore⟩
  | fired {sc : Scene} {i : Nat} {slot : Slot} {firing : Firing} {r r' : Reaction}
      (running : sc.engine.status = .running) (stands : sc.engine.slots[i]? = some slot)
      (fires : slot.transition.Fires slot.step slot.outputs.length sc.supply firing)
      (known : ∀ x ∈ firing.taken, x.2 ∈ sc.lore)
      (sees : r.Sees sc.engine slot) (fire : r.fire firing.taken firing.made = (r', .ok true)) :
    Act sc (.fired (.ofStep slot.step) :: firing.notes)
      ⟨sc.engine.become i r'.holdings firing.after, firing.supply,
        sc.lore.grow slot.step firing.fresh firing.inner⟩
  | seated {sc : Scene} {i : Nat} {slot : Slot} {inputs : Nat} {pending : List Generation}
      {placed : List Generation} {t parent : Token} {g : Generation} {j k : Nat}
      (running : sc.engine.status = .running) (stands : sc.engine.slots[i]? = some slot)
      (join : slot.transition = .join inputs pending) (known : t ∈ sc.lore)
      (isSplit : t.parent = some parent) (parentKnown : parent ∈ sc.lore)
      (holds : (sc.engine.reaction slot).holds k t = true)
      (located : Join.locate pending parent slot.inputs.length = (placed, j))
      (isPlaced : placed[j]? = some g) (unseen : g.buffers t = false)
      (free : g.slots[k]? = some none) :
    Act sc [] ⟨sc.engine.become i sc.engine.holdings
      (.join inputs (placed.set j { g with slots := g.slots.set k (some t) })),
      sc.supply, sc.lore⟩
  | refreshed {sc : Scene} {i : Nat} {slot : Slot} {inputs : Nat} {pending : List Generation}
      {g : Generation} {j : Nat}
      (running : sc.engine.status = .running) (stands : sc.engine.slots[i]? = some slot)
      (join : slot.transition = .join inputs pending) (isPending : pending[j]? = some g)
      (stale : ∃ e ∈ g.siblings, (sc.engine.reaction slot).holds e.1 e.2 = false) :
    Act sc [] ⟨sc.engine.become i sc.engine.holdings
      (.join inputs (pending.eraseIdx j ++ [g.refresh (sc.engine.reaction slot)])),
      sc.supply, sc.lore⟩
  | botched {sc : Scene} {i : Nat} {slot : Slot} {inputs : Nat} {pending : List Generation}
      {g : Generation} {j : Nat} {r' : Reaction} {place : String} {id : TokenId}
      (running : sc.engine.status = .running) (stands : sc.engine.slots[i]? = some slot)
      (join : slot.transition = .join inputs pending) (isPending : pending[j]? = some g)
      (consume : (sc.engine.reaction slot).consume g.siblings =
        (r', .error (.tokenNotHeld place id)))
      (held : ∀ e ∈ g.siblings, (sc.engine.reaction slot).holds e.1 e.2 = true) :
    Act sc [] ⟨(sc.engine.become i r'.holdings
      (.join inputs (pending.eraseIdx j))).halt (.tokenNotHeld place id), sc.supply, sc.lore⟩
  | refused {sc : Scene} {i : Nat} {slot : Slot} {inputs : Nat} {pending : List Generation}
      {t : Token} {k : Nat} {reason : Surprise}
      (running : sc.engine.status = .running) (stands : sc.engine.slots[i]? = some slot)
      (join : slot.transition = .join inputs pending) (known : t ∈ sc.lore)
      (holds : (sc.engine.reaction slot).holds k t = true)
      (refuses : Join.Refuses pending (sc.engine.reaction slot) k t reason) :
    Act sc [] ⟨sc.engine.halt (.unexpectedToken slot.step t.id reason), sc.supply, sc.lore⟩
  | balked {sc : Scene} {i : Nat} {slot : Slot} {seen : List Token} {t : Token}
      {rule : List Token → Token → Except String Nat} {reason : Failure}
      (running : sc.engine.status = .running) (stands : sc.engine.slots[i]? = some slot)
      (routed : slot.transition = .routed rule seen) (known : t ∈ sc.lore)
      (refuses : (∃ text, rule seen t = .error text ∧ reason = .refused text) ∨
        ∃ output, rule seen t = .ok output ∧ slot.outputs.length ≤ output ∧
          reason = .routedOutside output slot.outputs.length) :
    Act sc [] ⟨(sc.engine.become i sc.engine.holdings
      (.routed rule (seen ++ [t]))).halt (.transitionFailed slot.step reason), sc.supply, sc.lore⟩
  | released {sc : Scene} {i : Nat} {slot : Slot} {activity : String} {held : List Token}
      {t : Token} {j output place : Nat}
      (running : sc.engine.status = .running) (stands : sc.engine.slots[i]? = some slot)
      (task : slot.transition = .task activity held) (isHeld : held[j]? = some t)
      (target : slot.outputs[output]? = some place) :
    Act sc [] ⟨sc.engine.become i (sc.engine.holdings.modify place (·.add t))
      (.task activity (held.eraseIdx j)), sc.supply, sc.lore⟩
  | closed {sc : Scene} {i : Nat} {slot : Slot} {nest : Nest} {t u : Token} {child : Engine}
      {terminal : String} {output place : Nat}
      (running : sc.engine.status = .running) (stands : sc.engine.slots[i]? = some slot)
      (busy : slot.transition = .busy nest t child) (ended : child.status = .completed)
      (completion : child.completion = some (terminal, u))
      (mapped : nest.outputs.output? terminal = some output)
      (target : slot.outputs[output]? = some place) :
    Act sc [] ⟨sc.engine.become i (sc.engine.holdings.modify place (·.add t))
      (.idle nest), sc.supply, sc.lore⟩
  | announced {sc : Scene} {i : Nat} {slot : Slot} {activity : String} {held : List Token}
      (running : sc.engine.status = .running) (stands : sc.engine.slots[i]? = some slot)
      (task : slot.transition = .task activity held) :
    Act sc (held.map (.started (.ofStep slot.step) activity)) sc
  | ended {sc : Scene} {h : Holding} {place : Nat} {t : Token}
      (running : sc.engine.status = .running) (stands : sc.engine.holdings[place]? = some h)
      (terminal : h.isTerminal = true) (known : t ∈ sc.lore) :
    Act sc [.completed h.place.id t]
      ⟨{ sc.engine with status := .completed, completion := some (h.place.id, t) },
        sc.supply, sc.lore⟩
  | inside {sc : Scene} {i : Nat} {slot : Slot} {nest : Nest} {t : Token} {child child' : Engine}
      {events : List Event} {s' : Supply} {lore' : Lore}
      (running : sc.engine.status = .running) (stands : sc.engine.slots[i]? = some slot)
      (busy : slot.transition = .busy nest t child)
      (act : Act ⟨child, sc.supply, sc.lore.below slot.step⟩ events ⟨child', s', lore'⟩) :
    Act sc (events.filterMap (·.within slot.step))
      ⟨sc.engine.become i sc.engine.holdings (.busy nest t child'), s',
        sc.lore.graft slot.step lore'⟩
  | sunk {sc : Scene} {i : Nat} {slot : Slot} {nest : Nest} {t : Token} {child : Engine}
      {f : Fault}
      (running : sc.engine.status = .running) (stands : sc.engine.slots[i]? = some slot)
      (busy : slot.transition = .busy nest t child) (halted : child.haltedBy = some f)
      (halts : f.halts = true) :
    Act sc [] ⟨sc.engine.halt f, sc.supply, sc.lore⟩

/-- Acts one after the other, with all that is reported. -/
inductive Course : Scene → List Event → Scene → Prop
  | nil (sc : Scene) : Course sc [] sc
  | cons {a b c : Scene} {events more : List Event} (act : Act a events b)
      (rest : Course b more c) : Course a (events ++ more) c

namespace Course

variable {a b c : Scene} {events more : List Event}

theorem of_act (h : Act a events b) : Course a events b := by
  simpa only [List.append_nil] using Course.cons h (.nil b)

theorem trans (hab : Course a events b) (hbc : Course b more c) :
    Course a (events ++ more) c := by
  induction hab with
  | nil => exact hbc
  | cons act _ ih =>
    rw [List.append_assoc]
    exact .cons act (ih hbc)

theorem snoc (hab : Course a events b) (act : Act b more c) : Course a (events ++ more) c :=
  hab.trans (of_act act)

theorem snoc_silent (hab : Course a events b) (act : Act b [] c) : Course a events c := by
  simpa only [List.append_nil] using hab.snoc act

end Course
end RecipeNet
