import RecipeNet.Proofs.Json.Data
import RecipeNet.Proofs.Net.TokenId
import RecipeNet.Proofs.Snapshot.Restoring
import RecipeNet.Proofs.Timestamp.Text

/-!
Snapshots as documents. The document of a snapshot describes that snapshot, except that null is
no payload there, and unless it is nested more deeply than a document may be.
-/

namespace RecipeNet

/-! ### What a document leaves of a snapshot -/

def TokenRecord.withoutNull (r : TokenRecord) : TokenRecord :=
  { r with payload := r.payload.filter fun v => v ≠ .null }

def TokenRecord.depth (r : TokenRecord) : Nat :=
  (r.payload.map fun v => (Data.ofJson v).depth).getD 0

mutual
/-- A snapshot in which no token carries null, at any depth. -/
def Snapshot.withoutNulls : Snapshot → Snapshot
  | ⟨planId, version, fingerprint, capturedAt, tokens, places, transitions⟩ =>
    { planId, version, fingerprint, capturedAt, tokens := tokens.map TokenRecord.withoutNull, places,
      transitions := StepRecord.withoutNulls transitions }

def StepRecord.withoutNulls : List StepRecord → List StepRecord
  | [] => []
  | ⟨step, state⟩ :: rest => ⟨step, StepState.withoutNulls state⟩ :: StepRecord.withoutNulls rest

def StepState.withoutNulls : StepState → StepState
  | .join generations => .join generations
  | .nested token child => .nested token (Snapshot.withoutNulls child)
  | .task held => .task held
end

theorem StepRecord.withoutNulls_eq_map (records : List StepRecord) :
    withoutNulls records = records.map fun r => ⟨r.step, r.state.withoutNulls⟩ := by
  induction records with
  | nil => rfl
  | cons r rest ih =>
    obtain ⟨step, state⟩ := r
    rw [withoutNulls, ih, List.map_cons]

def StepRecord.toJson (r : StepRecord) : Json :=
  .obj [("step", .str r.step), ("state", r.state.toJson)]

theorem StepRecord.toJsons_eq_map (records : List StepRecord) :
    toJsons records = records.map toJson := by
  induction records with
  | nil => rfl
  | cons r rest ih =>
    obtain ⟨step, state⟩ := r
    rw [toJsons, ih, List.map_cons, toJson]

namespace Data

open Json (Sorted)

/-! ### Records without states -/

theorem tokenId?_toJson (id : TokenId) : tokenId? (ofJson id.toJson) = some id := by
  rw [TokenId.toJson, ofJson, tokenId?, str?, Option.bind_some, TokenId.parse?_text]

theorem nullable?_toJson (slot : Option TokenId) :
    nullable? tokenId? (ofJson ((slot.map (·.toJson)).getD .null)) = some slot := by
  cases slot with
  | none => rfl
  | some id =>
    rw [Option.map_some, Option.getD_some, nullable?, tokenId?_toJson, Option.map_some]
    simp [TokenId.toJson, ofJson]

theorem list?_tokenIds (ids : List TokenId) :
    list? tokenId? (ofJson (.arr (ids.map (·.toJson)))) = some ids :=
  list?_of_each fun id _ => tokenId?_toJson id

theorem placeRecord?_toJson (r : PlaceRecord) : placeRecord? (ofJson r.toJson) = some r := by
  have hfields : (ofJson r.toJson).fields? ["place", "tokens"] = _ :=
    fields?_ofJson (by simp) (by simp)
  rw [placeRecord?, hfields]
  simp [Fields.required, get?_cons, str?_ofJson, list?_tokenIds]

theorem generationRecord?_toJson (r : GenerationRecord) :
    generationRecord? (ofJson r.toJson) = some r := by
  have hfields : (ofJson r.toJson).fields? ["original", "slots"] = _ :=
    fields?_ofJson (by simp) (by simp)
  have hslots : list? (nullable? tokenId?) (ofJson (.arr (r.slots.map fun slot =>
      (slot.map (·.toJson)).getD .null))) = some r.slots :=
    list?_of_each fun slot _ => nullable?_toJson slot
  rw [generationRecord?, hfields]
  simp [Fields.required, get?_cons, tokenId?_toJson, hslots]

/-! ### Values that are kept as a whole -/

theorem nullable?_of_ne {α : Type} {read : Data → Option α} {v : Data} (h : v ≠ .null) :
    nullable? read v = (read v).map some := by
  unfold nullable?
  split
  · exact absurd rfl h
  · rfl

theorem kept?_ofJson (within : Bool) (v : Json) : (ofJson v).kept? within =
    if within = true ∨ (ofJson v).depth ≤ keptDepth then some (ofJson v) else none := by
  simp [kept?, sound_ofJson]

/-- A payload is read unless it is null or too deep. -/
theorem payload?_ofJson {v : Json} (sorted : v.Sorted) (within : Bool) :
    nullable? (fun v => (v.kept? within).bind (·.toJson?)) (ofJson v) =
      if within = true ∨ (ofJson v).depth ≤ keptDepth then
        some ((some v).filter fun v => v ≠ .null) else none := by
  by_cases hnull : v = .null
  · subst hnull
    rw [if_pos (.inr (Nat.zero_le _))]
    rfl
  · have hne : ofJson v ≠ .null := by
      intro heq
      have hback := toJson?_ofJson sorted
      rw [heq] at hback
      exact hnull (Option.some.inj hback).symm
    rw [nullable?_of_ne hne, kept?_ofJson]
    split
    · have hkept : (some v).filter (fun v => v ≠ .null) = some v := by simp [hnull]
      rw [Option.bind_some, toJson?_ofJson sorted, Option.map_some, hkept]
    · rfl

theorem tokenRecord?_toJson {r : TokenRecord} (sorted : ∀ v, r.payload = some v → v.Sorted)
    (within : Bool) : tokenRecord? within (ofJson r.toJson) =
      if within = true ∨ r.depth ≤ keptDepth then some r.withoutNull else none := by
  obtain ⟨id, payload, parent⟩ := r
  obtain ⟨fields, hfields, hid, hpayload, hparent⟩ : ∃ fields,
      (ofJson (TokenRecord.toJson ⟨id, payload, parent⟩)).fields? ["id", "payload", "original"] =
        some fields ∧
      fields.required "id" tokenId? = some id ∧
      fields.optional "payload" none (nullable? fun v => (v.kept? within).bind (·.toJson?)) =
        (if within = true ∨ TokenRecord.depth ⟨id, payload, parent⟩ ≤ keptDepth then
          some (payload.filter fun v => v ≠ .null) else none) ∧
      fields.optional "original" none (nullable? tokenId?) = some parent := by
    refine ⟨_, fields?_ofJson ?_ ?_, ?_, ?_, ?_⟩
    · cases payload <;> cases parent <;> simp
    · cases payload <;> cases parent <;> simp
    · simp [Fields.required, get?_cons, tokenId?_toJson]
    · cases payload with
      | none =>
        rw [if_pos (.inr (Nat.zero_le _))]
        cases parent <;> simp [Fields.optional, get?_cons, get?_nil]
      | some v =>
        change _ = if within = true ∨ (ofJson v).depth ≤ keptDepth then _ else _
        rw [← payload?_ofJson (sorted v rfl)]
        simp [Fields.optional, get?_cons]
    · cases parent with
      | none => cases payload <;> simp [Fields.optional, get?_cons, get?_nil]
      | some parent =>
        have hsome := nullable?_toJson (some parent)
        rw [Option.map_some, Option.getD_some] at hsome
        cases payload <;> simp [Fields.optional, get?_cons, hsome]
  rw [tokenRecord?, hfields]
  simp only [Option.bind_eq_bind, Option.bind_some, hid, hpayload, hparent]
  split <;> rfl

/-! ### States -/

/-- A kind in front of a state's own fields. -/
theorem stateParts?_ofJson {within : Bool} {kind : String} (known : kind ∈ stateNames)
    {fields : List (String × Json)} (others : "kind" ∉ fields.map (·.1)) :
    (ofJson (.obj (("kind", .str kind) :: fields))).stateParts? within =
      some (kind, ofJson (.obj fields)) := by
  have honly : onlyEntry? "kind" (fields.map fun f => (str f.1, ofJson f.2)) = some none := by
    induction fields with
    | nil => rfl
    | cons f rest ih =>
      obtain ⟨hf, hrest⟩ := not_or.1 (List.mem_cons.not.1 others)
      rw [List.map_cons, onlyEntry?, ih hrest, Option.bind_eq_bind, Option.bind_some,
        if_neg (Ne.symm hf)]
  have hfilter : (fields.map fun f => (str f.1, ofJson f.2)).filter
      (fun e => !isNamed ["kind"] e.1) = fields.map fun f => (str f.1, ofJson f.2) := by
    rw [List.filter_eq_self]
    intro e he
    obtain ⟨f, hf, rfl⟩ := List.mem_map.1 he
    have hne : f.1 ≠ "kind" := fun heq => others (heq ▸ List.mem_map_of_mem hf)
    simp [isNamed, hne]
  have hchoice : choice? within stateNames (ofJson (.str kind)) = some kind := if_pos known
  rw [ofJson_obj, ofJson_obj, List.map_cons, stateParts?, onlyEntry?, honly,
    List.filter_cons_of_neg (by simp [isNamed]), hfilter]
  simp [hchoice]

variable {readChild : Data → Option Snapshot}

/-- A state is read if it is not too deep and the snapshot within it is read. -/
theorem stepStateWith?_toJson {state : StepState}
    (child : ∀ token inner, state = .nested token inner →
      readChild (ofJson inner.toJson) = some inner.withoutNulls) (within : Bool) :
    stepStateWith? readChild within (ofJson state.toJson) =
      if within = true ∨ (ofJson state.toJson).depth ≤ keptDepth then some state.withoutNulls
        else none := by
  rw [stepStateWith?, kept?_ofJson]
  split
  · rw [Option.bind_eq_bind, Option.bind_some]
    cases state with
    | join generations =>
      have hlist : list? generationRecord? (ofJson (.arr (generations.map (·.toJson)))) =
          some generations :=
        list?_of_each fun g _ => generationRecord?_toJson g
      rw [StepState.toJson, stateParts?_ofJson (by decide) (by simp)]
      simp [fields?_ofJson, Fields.required, get?_cons, hlist, StepState.withoutNulls]
    | nested token inner =>
      have hchild := child token inner rfl
      rw [StepState.toJson, stateParts?_ofJson (by decide) (by simp)]
      simp [fields?_ofJson, Fields.required, get?_cons, tokenId?_toJson, hchild, StepState.withoutNulls]
    | task held =>
      rw [StepState.toJson, stateParts?_ofJson (by decide) (by simp)]
      simp [fields?_ofJson, Fields.required, get?_cons, list?_tokenIds, StepState.withoutNulls]
  · rfl

theorem stepRecordWith?_toJson {r : StepRecord}
    (child : ∀ token inner, r.state = .nested token inner →
      readChild (ofJson inner.toJson) = some inner.withoutNulls) (within : Bool) :
    stepRecordWith? readChild within (ofJson r.toJson) =
      if within = true ∨ (ofJson r.state.toJson).depth ≤ keptDepth then
        some ⟨r.step, r.state.withoutNulls⟩ else none := by
  have hfields : (ofJson r.toJson).fields? ["step", "state"] = _ :=
    fields?_ofJson (by simp) (by simp)
  have hstate := stepStateWith?_toJson child within
  rw [stepRecordWith?, hfields]
  simp only [Fields.required, List.map_cons, List.map_nil, get?_cons, if_true, Option.bind_eq_bind,
    Option.bind_some, str?_ofJson, String.reduceEq, if_false, hstate]
  split <;> rfl

/-! ### Snapshots -/

theorem word32?_toNat (n : UInt32) : word32? (ofJson (.int n.toNat)) = some n := by
  have hlt : n.toNat < Nat.pow 2 32 := n.toNat_lt
  rw [ofJson, word32?, nat?, Int.toNat_natCast, if_pos ⟨Int.natCast_nonneg _, hlt⟩, Option.map_some,
    UInt32.ofNat_toNat]

end Data

namespace Snapshot

def Bears (P : Json → Prop) (s : Snapshot) : Prop :=
  ∀ r ∈ s.tokens, ∀ v, r.payload = some v → P v

/-- A snapshot of a time that clocks show, whose payloads are values with integers of 64 bits and
fields in order of name. -/
structure Genuine (s : Snapshot) : Prop where
  time : s.capturedAt.Genuine
  payloads : s.Bears Json.Plain

/-- Whether the values that are kept as a whole are not too deep. -/
def Shallow (s : Snapshot) : Prop :=
  (∀ r ∈ s.tokens, r.depth ≤ Data.keptDepth) ∧
    ∀ r ∈ s.transitions, (Data.ofJson r.state.toJson).depth ≤ Data.keptDepth

instance : DecidablePred Shallow := fun s =>
  inferInstanceAs (Decidable ((∀ r ∈ s.tokens, _) ∧ ∀ r ∈ s.transitions, _))

/-- A snapshot within another one is nested less deeply. -/
theorem rank_nested {s inner : Snapshot} {step : String} {id : TokenId}
    (h : ⟨step, .nested id inner⟩ ∈ s.transitions) :
    (Data.ofJson inner.toJson).rank < (Data.ofJson s.toJson).rank := by
  obtain ⟨planId, version, fingerprint, capturedAt, tokens, places, transitions⟩ := s
  have hmem : StepRecord.toJson ⟨step, .nested id inner⟩ ∈ transitions.map StepRecord.toJson :=
    List.mem_map_of_mem h
  have hchild : (Data.ofJson inner.toJson).rank <
      (Data.ofJson (StepState.nested id inner).toJson).rank := by
    rw [StepState.toJson]
    exact Data.rank_lt_field (show ("child", inner.toJson) ∈ _ by simp)
  have hstate : (Data.ofJson (StepState.nested id inner).toJson).rank <
      (Data.ofJson (StepRecord.toJson ⟨step, .nested id inner⟩)).rank :=
    Data.rank_lt_field (show ("state", (StepState.nested id inner).toJson) ∈ _ by simp)
  have hrecord := Data.rank_lt_item hmem
  have hwhole : (Data.ofJson (.arr (transitions.map StepRecord.toJson))).rank < (Data.ofJson
      (Snapshot.toJson ⟨planId, version, fingerprint, capturedAt, tokens, places, transitions⟩)).rank := by
    rw [Snapshot.toJson, StepRecord.toJsons_eq_map]
    exact Data.rank_lt_field
      (show ("transitions", Json.arr (transitions.map StepRecord.toJson)) ∈ _ by simp)
  omega

/-- What a document describes, where `within` says that its depth has been checked. -/
theorem snapshotWithin?_toJson {s : Snapshot} (h : s.Throughout Genuine) {fuel : Nat} {within : Bool}
    (enough : (Data.ofJson s.toJson).rank < fuel) :
    Data.snapshotWithin? fuel within (Data.ofJson s.toJson) =
      if within = true ∨ s.Shallow then some s.withoutNulls else none := by
  induction h generalizing fuel within with
  | @intro s here inside ih =>
    obtain ⟨fuel, rfl⟩ : ∃ more, fuel = more + 1 := ⟨fuel - 1, by omega⟩
    have hchild : ∀ r ∈ s.transitions, ∀ token inner, r.state = .nested token inner →
        Data.snapshotWithin? fuel true (Data.ofJson inner.toJson) = some inner.withoutNulls := by
      rintro ⟨step, _⟩ hr token inner rfl
      have hrank := rank_nested hr
      rw [ih step token inner hr (by omega), if_pos (.inl rfl)]
    obtain ⟨planId, version, fingerprint, capturedAt, tokens, places, transitions⟩ := s
    have htokens := Data.list?_map fun r (hr : r ∈ tokens) =>
      Data.tokenRecord?_toJson (fun v hv => (here.payloads r hr v hv).sorted) within
    have hplaces := Data.list?_of_each fun r (_ : r ∈ places) => Data.placeRecord?_toJson r
    have hsteps := Data.list?_map fun r hr => Data.stepRecordWith?_toJson (hchild r hr) within
    have htime : Data.timestamp? (Data.ofJson (.str capturedAt.text)) = some capturedAt :=
      Timestamp.parse?_text here.time
    have hfits : (within = true ∨ Shallow
        ⟨planId, version, fingerprint, capturedAt, tokens, places, transitions⟩) ↔
        (∀ r ∈ tokens, within = true ∨ r.depth ≤ Data.keptDepth) ∧
          ∀ r ∈ transitions, within = true ∨
            (Data.ofJson r.state.toJson).depth ≤ Data.keptDepth := by
      cases within <;> simp [Shallow]
    rw [Snapshot.toJson, StepRecord.toJsons_eq_map, Data.snapshotWithin?,
      Data.fields?_ofJson (by simp) (by simp)]
    simp only [Data.Fields.required, Data.Fields.optional, List.map_cons, List.map_nil, Data.get?_cons,
      String.reduceEq, if_true, if_false, Option.bind_eq_bind, Option.bind_some, Data.str?_ofJson,
      Data.word32?_toNat, htime, htokens, hplaces, hsteps, hfits, withoutNulls,
      StepRecord.withoutNulls_eq_map]
    by_cases hshallow : ∀ r ∈ tokens, within = true ∨ r.depth ≤ Data.keptDepth
    · by_cases hstates : ∀ r ∈ transitions, within = true ∨
          (Data.ofJson r.state.toJson).depth ≤ Data.keptDepth
      · rw [if_pos hshallow, if_pos hstates, if_pos ⟨hshallow, hstates⟩]
        rfl
      · rw [if_pos hshallow, if_neg hstates, if_neg (not_and_of_not_right _ hstates)]
        rfl
    · rw [if_neg hshallow, if_neg (not_and_of_not_left _ hshallow)]
      rfl

end Snapshot
end RecipeNet
