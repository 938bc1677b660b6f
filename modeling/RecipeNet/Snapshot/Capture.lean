import RecipeNet.Net.Engine
import RecipeNet.Snapshot.TokenTable

/-!
Pausing a net and capturing what it holds. A net that has halted can be
captured too and stays halted. Nested nets are paused with the net they belong
to; if one of them cannot be, the steps after it stay as they were.
-/

namespace RecipeNet

def Status.paused? : Status → Option Status
  | .running | .paused => some .paused
  | .halted => some .halted
  | .created | .completed | .disposed => none

/-- The records of the places that hold tokens. -/
def Holding.records (holdings : List Holding) : List PlaceRecord :=
  (holdings.filter fun h => !h.tokens.isEmpty).map fun h => ⟨h.place.id, h.tokens.map (·.id)⟩

namespace Generation

def record (g : Generation) : GenerationRecord :=
  ⟨g.parent.id, g.slots.map fun slot => slot.map (·.id)⟩

def tokens (g : Generation) : List Token :=
  g.parent :: g.slots.filterMap id

end Generation

mutual
def Engine.pause (now : Timestamp) : Engine → Engine × Except Fault Snapshot
  | ⟨plan, fingerprint, status, holdings, slots, completion, haltedBy⟩ =>
    match status.paused? with
    | none =>
      (⟨plan, fingerprint, status, holdings, slots, completion, haltedBy⟩,
        .error (.wrongState .pause status))
    | some next =>
      let table := TokenTable.registerAll [] (holdings.flatMap (·.tokens))
      let (slots, captured) := Slot.captureAll now table slots
      (⟨plan, fingerprint, next, holdings, slots, completion, haltedBy⟩,
        captured.map fun (tokens, transitions) =>
          { planId := plan.id, version := plan.version, fingerprint, capturedAt := now, tokens,
            places := Holding.records holdings, transitions })

def Slot.captureAll (now : Timestamp) (table : List TokenRecord) :
    List Slot → List Slot × Except Fault (List TokenRecord × List StepRecord)
  | [] => ([], .ok (table, []))
  | ⟨step, inputs, outputs, phase, transition⟩ :: rest =>
    match Transition.capture now table transition with
    | (transition, .error f) => (⟨step, inputs, outputs, phase.suspend, transition⟩ :: rest, .error f)
    | (transition, .ok (table, state)) =>
      let (rest, captured) := Slot.captureAll now table rest
      (⟨step, inputs, outputs, phase.suspend, transition⟩ :: rest,
        captured.map fun (table, records) =>
          (table, (state.map fun s => ⟨step, s⟩).toList ++ records))

def Transition.capture (now : Timestamp) (table : List TokenRecord) :
    Transition → Transition × Except Fault (List TokenRecord × Option StepState)
  | .busy nest token child =>
    match Engine.pause now child with
    | (child, .error f) => (.busy nest token child, .error f)
    | (child, .ok snapshot) =>
      (.busy nest token child,
        .ok (TokenTable.register table token, some (.nested token.id snapshot)))
  | .join inputs pending =>
    (.join inputs pending,
      .ok (TokenTable.registerAll table (pending.flatMap (·.tokens)),
        if pending.isEmpty then none else some (.join (pending.map (·.record)))))
  | .task activity held =>
    (.task activity held,
      .ok (TokenTable.registerAll table held,
        if held.isEmpty then none else some (.task (held.map (·.id)))))
  | .pass output => (.pass output, .ok (table, none))
  | .split => (.split, .ok (table, none))
  | .routed rule seen => (.routed rule seen, .ok (table, none))
  | .idle nest => (.idle nest, .ok (table, none))
end

end RecipeNet
