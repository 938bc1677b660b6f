import Mathlib.Data.List.InsertIdx
import Mathlib.Logic.Equiv.Defs
import RecipeNet.Net.Cascade

/-!
Identities are only compared. If all identities in a net are replaced, one for
one, then places, joins and steps do what they did, with the replacements. A
routing rule is told the tokens by their old identities.
-/

namespace RecipeNet

variable {ρ : Equiv.Perm TokenId}

def Token.rename (ρ : Equiv.Perm TokenId) : Token → Token
  | ⟨id, payload, none⟩ => ⟨ρ id, payload, none⟩
  | ⟨id, payload, some parent⟩ => ⟨ρ id, payload, some (parent.rename ρ)⟩

def Surprise.rename (ρ : Equiv.Perm TokenId) : Surprise → Surprise
  | .notSplit => .notSplit
  | .noSlot slots input => .noSlot slots input
  | .taken input sibling parent => .taken input (ρ sibling) (ρ parent)

def Mismatch.rename (ρ : Equiv.Perm TokenId) : Mismatch → Mismatch
  | .cyclic token => .cyclic (ρ token)
  | .missing token => .missing (ρ token)
  | .heldTwice token => .heldTwice (ρ token)
  | other => other

def Fault.rename (ρ : Equiv.Perm TokenId) : Fault → Fault
  | .tokenNotHeld place token => .tokenNotHeld place (ρ token)
  | .unexpectedToken step token reason => .unexpectedToken step (ρ token) (reason.rename ρ)
  | .notAwaiting step token => .notAwaiting step (ρ token)
  | .snapshotMismatch plan reason => .snapshotMismatch plan (reason.rename ρ)
  | other => other

def renamed {α β : Type} (ρ : Equiv.Perm TokenId) (f : α → β) : Except Fault α → Except Fault β
  | .ok a => .ok (f a)
  | .error fault => .error (fault.rename ρ)

def Event.rename (ρ : Equiv.Perm TokenId) : Event → Event
  | .fired step => .fired step
  | .started step activity t => .started step activity (t.rename ρ)
  | .completed place t => .completed place (t.rename ρ)

def Holding.rename (ρ : Equiv.Perm TokenId) (h : Holding) : Holding :=
  { h with tokens := h.tokens.map (Token.rename ρ) }

def renameAt (ρ : Equiv.Perm TokenId) (x : Nat × Token) : Nat × Token := (x.1, x.2.rename ρ)

def Reaction.rename (ρ : Equiv.Perm TokenId) (r : Reaction) : Reaction :=
  { r with
    holdings := r.holdings.map (Holding.rename ρ)
    produced := r.produced.map (renameAt ρ)
    events := r.events.map (Event.rename ρ) }

def Generation.rename (ρ : Equiv.Perm TokenId) (g : Generation) : Generation :=
  ⟨g.parent.rename ρ, g.slots.map fun slot => slot.map (Token.rename ρ)⟩

def Seat.rename (ρ : Equiv.Perm TokenId) : Seat → Seat
  | .seated => .seated
  | .slot input => .slot input
  | .none reason => .none (reason.rename ρ)

def renameRule (ρ : Equiv.Perm TokenId) (rule : List Token → Token → Except String Nat) :
    List Token → Token → Except String Nat :=
  fun seen t => rule (seen.map (Token.rename ρ.symm)) (t.rename ρ.symm)

mutual
def Fitting.rename (ρ : Equiv.Perm TokenId) : Fitting → Fitting
  | .pass output => .pass output
  | .split => .split
  | .join inputs => .join inputs
  | .task activity => .task activity
  | .routed rule => .routed (renameRule ρ rule)
  | .nested plan outputs => .nested plan outputs
  | .nestedWith plan outputs inner =>
    .nestedWith plan outputs fun step => Fitting.renameAnswer ρ (inner step)

def Fitting.renameAnswer (ρ : Equiv.Perm TokenId) : Except Fault Fitting → Except Fault Fitting
  | .ok fitting => .ok (fitting.rename ρ)
  | .error fault => .error (fault.rename ρ)
end

def Fitter.rename (ρ : Equiv.Perm TokenId) (fitter : Fitter) : Fitter :=
  fun step => Fitting.renameAnswer ρ (fitter step)

def Nest.rename (ρ : Equiv.Perm TokenId) (nest : Nest) : Nest :=
  { nest with fitter := Fitter.rename ρ nest.fitter }

mutual
def Engine.rename (ρ : Equiv.Perm TokenId) : Engine → Engine
  | ⟨plan, fingerprint, status, holdings, slots, completion, haltedBy⟩ =>
    ⟨plan, fingerprint, status, holdings.map (Holding.rename ρ), Slot.allRename ρ slots,
      completion.map fun x => (x.1, x.2.rename ρ), haltedBy.map (Fault.rename ρ)⟩

def Slot.allRename (ρ : Equiv.Perm TokenId) : List Slot → List Slot
  | [] => []
  | ⟨step, inputs, outputs, phase, tr⟩ :: rest =>
    ⟨step, inputs, outputs, phase, tr.rename ρ⟩ :: Slot.allRename ρ rest

def Transition.rename (ρ : Equiv.Perm TokenId) : Transition → Transition
  | .pass output => .pass output
  | .split => .split
  | .join inputs pending => .join inputs (pending.map (Generation.rename ρ))
  | .task activity held => .task activity (held.map (Token.rename ρ))
  | .routed rule seen => .routed (renameRule ρ rule) (seen.map (Token.rename ρ))
  | .idle nest => .idle (nest.rename ρ)
  | .busy nest t child => .busy (nest.rename ρ) (t.rename ρ) (child.rename ρ)
end

def Slot.rename (ρ : Equiv.Perm TokenId) (slot : Slot) : Slot :=
  { slot with transition := slot.transition.rename ρ }

def Engine.Notice.rename (ρ : Equiv.Perm TokenId) (n : Engine.Notice) : Engine.Notice :=
  { n with token := n.token.rename ρ }

/-- What is left behind with other identities, and a supply of which others have been
drawn. -/
def Reacted.rename (ρ : Equiv.Perm TokenId) (s : Supply) (x : Reacted) : Reacted :=
  ⟨x.reaction.rename ρ, x.transition.rename ρ, s, renamed ρ id x.result⟩

def Run.rename (ρ : Equiv.Perm TokenId) (s : Supply) (run : Run) : Run :=
  ⟨run.engine.rename ρ, s, run.events.map (Event.rename ρ), renamed ρ id run.result⟩

def Engine.Visit.rename (ρ : Equiv.Perm TokenId) (s : Supply) (v : Engine.Visit) : Engine.Visit :=
  ⟨v.engine.rename ρ, v.notices.map (Engine.Notice.rename ρ), s, v.events.map (Event.rename ρ),
    renamed ρ id v.result⟩

@[simp] theorem renamed_ok {α β : Type} (f : α → β) (a : α) :
    renamed ρ f (.ok a) = .ok (f a) := rfl

@[simp] theorem renamed_error {α β : Type} (f : α → β) (fault : Fault) :
    renamed ρ f (.error fault) = .error (fault.rename ρ) := rfl

namespace Token

@[simp] theorem rename_id (t : Token) : (t.rename ρ).id = ρ t.id := by
  obtain ⟨id, payload, _ | parent⟩ := t <;> rfl

@[simp] theorem rename_parent (t : Token) : (t.rename ρ).parent = t.parent.map (rename ρ) := by
  obtain ⟨id, payload, _ | parent⟩ := t <;> rfl

@[simp] theorem rename_same (t u : Token) : (t.rename ρ).same (u.rename ρ) = t.same u := by
  rw [Bool.eq_iff_iff]
  simp [same]

theorem rename_effectivePayload (t : Token) :
    (t.rename ρ).effectivePayload = t.effectivePayload := by
  match t with
  | ⟨id, some payload, none⟩ => rfl
  | ⟨id, none, none⟩ => rfl
  | ⟨id, some payload, some parent⟩ => rfl
  | ⟨id, none, some parent⟩ =>
    simp only [rename, effectivePayload]
    exact rename_effectivePayload parent

@[simp] theorem rename_symm (t : Token) : (t.rename ρ).rename ρ.symm = t := by
  match t with
  | ⟨id, payload, none⟩ => simp [rename]
  | ⟨id, payload, some parent⟩ => simp [rename, rename_symm parent]

end Token

namespace Holding

variable (h : Holding) (t : Token)

@[simp] theorem rename_place : (h.rename ρ).place = h.place := rfl

@[simp] theorem rename_holds : (h.rename ρ).holds (t.rename ρ) = h.holds t := by
  simp [holds, rename, Function.comp_def]

@[simp] theorem rename_add : (h.rename ρ).add (t.rename ρ) = (h.add t).rename ρ := by
  simp [add, rename]

theorem rename_swapRemove (ts : List Token) (i : Nat) :
    swapRemove (ts.map (Token.rename ρ)) i = (swapRemove ts i).map (Token.rename ρ) := by
  unfold swapRemove
  rw [List.getLast?_map]
  cases ts.getLast? with
  | none => rfl
  | some last =>
    simp only [Option.map_some]
    rw [← List.map_set, List.map_dropLast]

theorem rename_remove :
    (h.rename ρ).remove (t.rename ρ) = renamed ρ (rename ρ) (h.remove t) := by
  have hindex : (h.rename ρ).tokens.findIdx? (·.same (t.rename ρ)) =
      h.tokens.findIdx? (·.same t) := by
    simp [rename, List.findIdx?_map, Function.comp_def]
  unfold remove
  rw [hindex]
  cases h.tokens.findIdx? (·.same t) with
  | none => simp [Fault.rename]
  | some i => simp [rename, rename_swapRemove]

end Holding

namespace Reaction

variable (r : Reaction) (k : Nat) (t : Token)

@[simp] theorem rename_step : (r.rename ρ).step = r.step := rfl

@[simp] theorem rename_inputs : (r.rename ρ).inputs = r.inputs := rfl

@[simp] theorem rename_outputs : (r.rename ρ).outputs = r.outputs := rfl

@[simp] theorem rename_input? : (r.rename ρ).input? k = (r.input? k).map (Holding.rename ρ) := by
  simp only [input?, rename]
  cases r.inputs[k]? <;> simp

@[simp] theorem rename_holds : (r.rename ρ).holds k (t.rename ρ) = r.holds k t := by
  unfold holds
  rw [rename_input?]
  cases r.input? k <;> simp

@[simp] theorem rename_waiting? :
    (r.rename ρ).waiting? k = (r.waiting? k).map (Token.rename ρ) := by
  unfold waiting?
  rw [rename_input?]
  cases r.input? k with
  | none => rfl
  | some h => simp [Holding.rename]

theorem rename_outputPlace : (r.rename ρ).outputPlace k = renamed ρ id (r.outputPlace k) := by
  unfold outputPlace
  rw [rename_outputs]
  cases r.outputs[k]? <;> rfl

theorem rename_targets (made : List (Nat × Token)) : (r.rename ρ).targets (made.map (renameAt ρ)) =
    renamed ρ (List.map (renameAt ρ)) (r.targets made) := by
  induction made with
  | nil => rfl
  | cons x rest ih =>
    obtain ⟨output, t⟩ := x
    simp only [List.map_cons, renameAt, targets, rename_outputPlace]
    cases r.outputPlace output with
    | error f => rfl
    | ok place =>
      simp only [renamed_ok, id]
      rw [ih]
      cases r.targets rest <;> rfl

@[simp] theorem rename_put : (r.rename ρ).put k (t.rename ρ) = (r.put k t).rename ρ := by
  have hholdings : (r.holdings.map (Holding.rename ρ)).modify k (·.add (t.rename ρ)) =
      (r.holdings.modify k (·.add t)).map (Holding.rename ρ) := by
    apply List.ext_getElem?
    intro p
    simp only [List.getElem?_modify, List.getElem?_map]
    by_cases hp : k = p <;> cases r.holdings[p]? <;> simp [hp]
  simp [put, rename, hholdings, renameAt]

theorem rename_putAll (placed : List (Nat × Token)) :
    (placed.map (renameAt ρ)).foldl (fun r x => r.put x.1 x.2) (r.rename ρ) =
      (placed.foldl (fun r x => r.put x.1 x.2) r).rename ρ := by
  induction placed generalizing r with
  | nil => rfl
  | cons x rest ih =>
    rw [List.map_cons, List.foldl_cons, List.foldl_cons, ← ih, ← rename_put]
    rfl

theorem rename_consume (taken : List (Nat × Token)) :
    (r.rename ρ).consume (taken.map (renameAt ρ)) =
      ((r.consume taken).1.rename ρ, renamed ρ id (r.consume taken).2) := by
  induction taken generalizing r with
  | nil => rfl
  | cons x rest ih =>
    obtain ⟨input, t⟩ := x
    simp only [List.map_cons, renameAt, consume, rename_inputs, rename_input?]
    cases hin : r.inputs[input]? with
    | none => exact ih r
    | some place =>
      cases hhold : r.input? input with
      | none => exact ih r
      | some h =>
        simp only [Option.map_some, Holding.rename_remove]
        cases h.remove t with
        | error f => rfl
        | ok h' =>
          have hset : { r.rename ρ with
              holdings := (r.rename ρ).holdings.set place (h'.rename ρ) } =
              ({ r with holdings := r.holdings.set place h' } : Reaction).rename ρ := by
            simp [rename, List.map_set]
          exact (congrArg (consume · (rest.map (renameAt ρ))) hset).trans (ih _)

@[simp] theorem rename_raise (e : Event) : (r.rename ρ).raise (e.rename ρ) = (r.raise e).rename ρ := by
  simp [raise, rename]

theorem rename_fire (taken made : List (Nat × Token)) :
    (r.rename ρ).fire (taken.map (renameAt ρ)) (made.map (renameAt ρ)) =
      ((r.fire taken made).1.rename ρ, renamed ρ id (r.fire taken made).2) := by
  have hall : (taken.map (renameAt ρ)).all (fun x => (r.rename ρ).holds x.1 x.2) =
      taken.all fun x => r.holds x.1 x.2 := by
    simp [renameAt, Function.comp_def]
  unfold fire
  rw [rename_targets]
  cases r.targets made with
  | error f => rfl
  | ok placed =>
    simp only [renamed_ok, hall]
    by_cases hheld : taken.all (fun x => r.holds x.1 x.2) = true
    · simp only [hheld, if_true, rename_consume]
      cases r.consume taken with
      | mk r' result =>
        cases result with
        | error f => rfl
        | ok u =>
          simp only [renamed_ok, id, rename_putAll]
          rw [← rename_raise]
          rfl
    · simp only [hheld]
      rfl

theorem rename_produce :
    (r.rename ρ).produce k (t.rename ρ) = renamed ρ (rename ρ) (r.produce k t) := by
  unfold produce
  rw [rename_outputPlace]
  cases r.outputPlace k with
  | error f => rfl
  | ok place => simp [Except.map]

end Reaction

namespace Generation

variable (g : Generation) (r : Reaction) (k : Nat) (t : Token)

@[simp] theorem rename_isComplete : (g.rename ρ).isComplete = g.isComplete := by
  simp [isComplete, rename, Function.comp_def]

@[simp] theorem rename_buffers : (g.rename ρ).buffers (t.rename ρ) = g.buffers t := by
  unfold buffers rename
  rw [List.any_map]
  congr 1
  funext slot
  cases slot <;> simp

theorem rename_siblings : (g.rename ρ).siblings = g.siblings.map (renameAt ρ) := by
  simp only [siblings, rename, List.zipIdx_map, List.filterMap_map, List.map_filterMap]
  congr 1
  funext x
  obtain ⟨slot, input⟩ := x
  cases slot <;> rfl

theorem rename_freeSlot? : (g.rename ρ).freeSlot? (r.rename ρ) (t.rename ρ) = g.freeSlot? r t := by
  simp only [freeSlot?, rename, List.zipIdx_map, List.find?_map, Option.map_map]
  have hsame : (fun x : Option Token × Nat => x.1.isNone && (r.rename ρ).holds x.2 (t.rename ρ)) ∘
      Prod.map (fun slot : Option Token => slot.map (Token.rename ρ)) id =
        fun x => x.1.isNone && r.holds x.2 t := by
    funext x
    simp
  rw [hsame]
  rfl

theorem rename_refresh : (g.rename ρ).refresh (r.rename ρ) = (g.refresh r).rename ρ := by
  simp only [refresh, rename, List.zipIdx_map, List.map_map]
  congr 1
  refine List.map_congr_left fun x _ => ?_
  obtain ⟨slot, input⟩ := x
  cases slot with
  | none => rfl
  | some u =>
    simp only [Function.comp_apply, Prod.map_apply, Option.map_some, id, Option.filter,
      Reaction.rename_holds]
    split <;> rfl

theorem rename_seat :
    (g.rename ρ).seat (r.rename ρ) k (t.rename ρ) = (g.seat r k t).rename ρ := by
  unfold seat
  rw [rename_freeSlot?, rename_buffers]
  have hslots : (g.rename ρ).slots = g.slots.map fun slot => slot.map (Token.rename ρ) := rfl
  have hparent : (g.rename ρ).parent = g.parent.rename ρ := rfl
  rw [hslots, hparent, List.getElem?_map, List.length_map, Token.rename_id]
  cases g.slots[k]? with
  | none => rfl
  | some current =>
    cases current with
    | none =>
      simp only [Option.map_some, Option.map_none, Option.any_none]
      split <;> rfl
    | some held =>
      simp only [Option.map_some, Option.any_some, Token.rename_same, Token.rename_id]
      split
      · rfl
      · cases g.freeSlot? r t <;> rfl

end Generation

namespace Join

variable (pending : List Generation) (g : Generation) (r : Reaction) (k width : Nat)
  (parent t : Token)

theorem rename_locate : locate (pending.map (Generation.rename ρ)) (parent.rename ρ) width =
    ((locate pending parent width).1.map (Generation.rename ρ),
      (locate pending parent width).2) := by
  have hindex : (pending.map (Generation.rename ρ)).findIdx?
      (fun g => g.parent.same (parent.rename ρ)) =
        pending.findIdx? fun g => g.parent.same parent := by
    simp [List.findIdx?_map, Generation.rename, Function.comp_def]
  unfold locate
  rw [hindex]
  cases pending.findIdx? fun g => g.parent.same parent with
  | some i => rfl
  | none => simp [Generation.rename]

theorem rename_complete : complete (pending.map (Generation.rename ρ)) (g.rename ρ) (r.rename ρ) =
    ((complete pending g r).1.rename ρ, (complete pending g r).2.1.map (Generation.rename ρ),
      renamed ρ id (complete pending g r).2.2) := by
  have hfire := r.rename_fire (ρ := ρ) g.siblings [(0, g.parent)]
  rw [← Generation.rename_siblings] at hfire
  have hmade : [(0, g.parent)].map (renameAt ρ) = [(0, (g.rename ρ).parent)] := rfl
  rw [hmade] at hfire
  unfold complete
  rw [hfire]
  cases r.fire g.siblings [(0, g.parent)] with
  | mk r' result =>
    cases result with
    | error f => rfl
    | ok fired =>
      cases fired with
      | true => rfl
      | false => simp [Generation.rename_refresh]

theorem rename_arrive :
    arrive (pending.map (Generation.rename ρ)) (r.rename ρ) k (t.rename ρ) =
      ((arrive pending r k t).1.rename ρ, (arrive pending r k t).2.1.map (Generation.rename ρ),
        renamed ρ id (arrive pending r k t).2.2) := by
  unfold arrive
  rw [Reaction.rename_holds, Token.rename_parent]
  by_cases hheld : (!r.holds k t) = true
  · rw [if_pos hheld, if_pos hheld]
    rfl
  rw [if_neg hheld, if_neg hheld]
  cases t.parent with
  | none => simp [Fault.rename, Surprise.rename]
  | some parent =>
    simp only [Option.map_some, rename_locate, Reaction.rename_inputs, List.getElem?_map]
    cases (locate pending parent r.inputs.length).1[(locate pending parent r.inputs.length).2]? with
    | none => rfl
    | some g =>
      simp only [Option.map_some, Generation.rename_seat]
      cases g.seat r k t with
      | seated => rfl
      | none reason => simp [Seat.rename, Fault.rename]
      | slot slot =>
        have hset : (⟨(g.rename ρ).parent, (g.rename ρ).slots.set slot (some (t.rename ρ))⟩ :
            Generation) = (⟨g.parent, g.slots.set slot (some t)⟩ : Generation).rename ρ := by
          simp [Generation.rename, List.map_set]
        simp only [Seat.rename, hset, Generation.rename_isComplete]
        split
        · rw [List.eraseIdx_map, rename_complete]
        · rw [← List.map_set]
          rfl

end Join
end RecipeNet
