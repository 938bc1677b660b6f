import RecipeNet.Proofs.Payload
import RecipeNet.Proofs.Snapshot.Document

/-!
Files of snapshots. A file gives back the snapshot that was written to it, unless a token carries
null or the document is nested more deeply than documents may be.
-/

namespace RecipeNet

namespace Snapshot

variable {s : Snapshot}

mutual
def payloads : Snapshot → List Json
  | ⟨_, _, _, _, tokens, _, transitions⟩ => tokens.filterMap (·.payload) ++ payloadsOf transitions

def payloadsOf : List StepRecord → List Json
  | [] => []
  | ⟨_, .nested _ child⟩ :: rest => payloads child ++ payloadsOf rest
  | ⟨_, .join _⟩ :: rest | ⟨_, .task _⟩ :: rest => payloadsOf rest
end

theorem mem_payloadsOf {records : List StepRecord} {v : Json} : v ∈ payloadsOf records ↔
    ∃ step id inner, ⟨step, .nested id inner⟩ ∈ records ∧ v ∈ inner.payloads := by
  induction records with
  | nil => simp [payloadsOf]
  | cons r rest ih =>
    obtain ⟨step, state⟩ := r
    cases state with
    | nested id inner =>
      rw [payloadsOf, List.mem_append, ih]
      constructor
      · rintro (h | ⟨step', id', inner', hmem, hv⟩)
        · exact ⟨step, id, inner, List.mem_cons_self, h⟩
        · exact ⟨step', id', inner', List.mem_cons_of_mem _ hmem, hv⟩
      · rintro ⟨step', id', inner', hmem, hv⟩
        rcases List.mem_cons.1 hmem with heq | hmem
        · cases heq
          exact .inl hv
        · exact .inr ⟨step', id', inner', hmem, hv⟩
    | _ => simp [payloadsOf, ih]

/-- A property of all payloads is one of the token tables at each depth. -/
theorem throughout_bears {P : Json → Prop} : s.Throughout (Bears P) ↔ ∀ v ∈ s.payloads, P v := by
  have hall : s.Throughout fun _ => True := throughout_of_forall (fun _ => trivial) s
  induction hall with
  | @intro s _ _ ih =>
    have hmem : ∀ v, v ∈ s.payloads ↔ (∃ r ∈ s.tokens, r.payload = some v) ∨
        ∃ step id inner, ⟨step, .nested id inner⟩ ∈ s.transitions ∧ v ∈ inner.payloads := by
      intro v
      obtain ⟨planId, version, fingerprint, capturedAt, tokens, places, transitions⟩ := s
      rw [payloads, List.mem_append, List.mem_filterMap, mem_payloadsOf]
    constructor
    · intro h v hv
      rcases (hmem v).1 hv with ⟨r, hr, hpayload⟩ | ⟨step, id, inner, hinner, hv⟩
      · exact h.here r hr v hpayload
      · exact (ih step id inner hinner).1 (h.inside hinner) v hv
    · intro h
      refine .intro (fun r hr v hv => h v ((hmem v).2 (.inl ⟨r, hr, hv⟩))) ?_
      intro step id inner hinner
      exact (ih step id inner hinner).2 fun v hv =>
        h v ((hmem v).2 (.inr ⟨step, id, inner, hinner, hv⟩))

/-! ### The text of a file -/

theorem exact_ids (ids : List TokenId) : (Json.arr (ids.map (·.toJson))).Exact :=
  .list fun _ _ => .str _

theorem exact_record {r : TokenRecord} (h : ∀ v, r.payload = some v → v.Exact) :
    r.toJson.Exact := by
  refine .obj fun f hf => ?_
  rcases List.mem_cons.1 hf with rfl | hf
  · exact .str _
  · rcases List.mem_append.1 hf with hf | hf
    · obtain ⟨v, hv, rfl⟩ := Option.map_eq_some_iff.1 (Option.mem_toList.1 hf)
      exact h v hv
    · obtain ⟨id, -, rfl⟩ := Option.map_eq_some_iff.1 (Option.mem_toList.1 hf)
      exact .str _

theorem exact_place (r : PlaceRecord) : r.toJson.Exact :=
  .cons (.str _) (.cons (exact_ids _) .nil)

theorem exact_generation (r : GenerationRecord) : r.toJson.Exact := by
  refine .cons (.str _) (.cons (.list fun slot _ => ?_) .nil)
  cases slot with
  | none => exact .null
  | some id => exact .str _

theorem exact_state {state : StepState}
    (child : ∀ token inner, state = .nested token inner → inner.toJson.Exact) :
    state.toJson.Exact := by
  cases state with
  | join generations =>
    rw [StepState.toJson]
    exact .cons (.str _) (.cons (.list fun g _ => exact_generation g) .nil)
  | nested token inner =>
    rw [StepState.toJson]
    exact .cons (.str _) (.cons (.str _) (.cons (child token inner rfl) .nil))
  | task held =>
    rw [StepState.toJson]
    exact .cons (.str _) (.cons (exact_ids held) .nil)

/-- There are no numbers in a document but those of the payloads and the version. -/
theorem exact_toJson (h : s.Throughout (Bears Json.Exact)) : s.toJson.Exact := by
  induction h with
  | @intro s here inside ih =>
    obtain ⟨planId, version, fingerprint, capturedAt, tokens, places, transitions⟩ := s
    have hversion : (Json.int version.toNat).Exact := by
      have hlt := version.toNat_lt
      exact .int (by omega) (by omega)
    have htokens : (Json.arr (tokens.map (·.toJson))).Exact :=
      .list fun r hr => exact_record (here r hr)
    have hplaces : (Json.arr (places.map (·.toJson))).Exact := .list fun r _ => exact_place r
    have hsteps : (Json.arr (transitions.map StepRecord.toJson)).Exact := by
      refine .list fun r hr => .cons (.str _) (.cons (exact_state ?_) .nil)
      obtain ⟨step, state⟩ := r
      rintro token inner rfl
      exact ih step token inner hr
    rw [toJson, StepRecord.toJsons_eq_map]
    exact .cons (.str _) (.cons hversion (.cons (.str _) (.cons (.str _) (.cons htokens
      (.cons hplaces (.cons hsteps .nil))))))

/-! ### How deep a document is -/

theorem depth_ids_le (ids : List TokenId) {n : Nat} :
    (Data.ofJson (.arr (ids.map (·.toJson)))).depth ≤ n + 1 :=
  Data.depth_list_le.2 fun _ _ => Nat.zero_le n

theorem depth_record_le {r : TokenRecord} {n : Nat} :
    (Data.ofJson r.toJson).depth ≤ n + 1 ↔ r.depth ≤ n := by
  obtain ⟨id, payload, parent⟩ := r
  rw [TokenRecord.toJson, Data.depth_obj_le]
  cases payload <;> cases parent <;>
    simp [TokenRecord.depth, TokenId.toJson, Data.ofJson, Data.depth]

theorem depth_place_le (r : PlaceRecord) {n : Nat} : (Data.ofJson r.toJson).depth ≤ n + 1 + 1 := by
  rw [PlaceRecord.toJson, Data.depth_obj_le]
  exact List.forall_mem_cons.2 ⟨Nat.zero_le _, List.forall_mem_singleton.2 (depth_ids_le r.tokens)⟩

theorem depth_step_le {r : StepRecord} {n : Nat} :
    (Data.ofJson r.toJson).depth ≤ n + 1 ↔ (Data.ofJson r.state.toJson).depth ≤ n := by
  rw [StepRecord.toJson, Data.depth_obj_le]
  simp [Data.ofJson, Data.depth]

/-- What is kept as a whole stands below three levels of the document. -/
theorem depth_le_iff : (Data.ofJson s.toJson).depth ≤ 127 ↔ s.Shallow := by
  obtain ⟨planId, version, fingerprint, capturedAt, tokens, places, transitions⟩ := s
  have htokens : (Data.ofJson (.arr (tokens.map (·.toJson)))).depth ≤ 124 + 1 + 1 ↔
      ∀ r ∈ tokens, r.depth ≤ 124 := by
    rw [Data.depth_list_le]
    exact forall₂_congr fun r _ => depth_record_le
  have hplaces : (Data.ofJson (.arr (places.map (·.toJson)))).depth ≤ 124 + 1 + 1 :=
    Data.depth_list_le.2 fun r _ => depth_place_le r
  have hsteps : (Data.ofJson (.arr (transitions.map StepRecord.toJson))).depth ≤ 124 + 1 + 1 ↔
      ∀ r ∈ transitions, (Data.ofJson r.state.toJson).depth ≤ 124 := by
    rw [Data.depth_list_le]
    exact forall₂_congr fun r _ => depth_step_le
  have hscalar : ∀ text : String, (Data.ofJson (.str text)).depth ≤ 124 + 1 + 1 := fun _ =>
    Nat.zero_le _
  have hversion : (Data.ofJson (.int version.toNat)).depth ≤ 124 + 1 + 1 := Nat.zero_le _
  show _ ≤ 124 + 1 + 1 + 1 ↔ _
  rw [toJson, StepRecord.toJsons_eq_map, Data.depth_obj_le]
  simp only [List.forall_mem_cons, hscalar, hversion, htokens, hplaces, hsteps, List.not_mem_nil,
    false_imp_iff, implies_true, and_true, true_and]
  rfl

/-! ### What a file gives back -/

/-- A file gives back the snapshot without its nulls, if the document is not too deep. -/
theorem ofFileText?_fileText (h : s.Throughout Genuine) : ofFileText? s.fileText =
    if (Data.ofJson s.toJson).depth ≤ 127 then some s.withoutNulls else none := by
  have hexact := exact_toJson (h.imp fun s hs r hr v hv => (hs.payloads r hr v hv).exact)
  have hread : Data.snapshotWithin? ((Data.ofJson s.toJson).rank + 1) false (Data.ofJson s.toJson) = _ :=
    snapshotWithin?_toJson h (Nat.lt_succ_self _)
  rw [ofFileText?, fileText, Json.read?_pretty hexact, Option.bind_some, Data.snapshot?, hread]
  simp only [Bool.false_eq_true, false_or, depth_le_iff]

theorem withoutNull_eq_self {r : TokenRecord} :
    r.withoutNull = r ↔ ∀ v, r.payload = some v → v ≠ .null := by
  obtain ⟨id, payload, parent⟩ := r
  cases payload with
  | none => simp [TokenRecord.withoutNull]
  | some v =>
    by_cases hv : v = .null
    · simp [TokenRecord.withoutNull, hv]
    · simp [TokenRecord.withoutNull, Option.filter, hv]

theorem state_eq_self {state : StepState} : state.withoutNulls = state ↔
    ∀ token inner, state = .nested token inner → inner.withoutNulls = inner := by
  cases state <;> simp [StepState.withoutNulls]

theorem map_eq_self {α : Type} {f : α → α} {l : List α} : l.map f = l ↔ ∀ x ∈ l, f x = x := by
  have hmap := List.map_inj_left (f := f) (g := id) (l := l)
  rwa [List.map_id] at hmap

/-- Nothing is dropped from a snapshot just if it has no nulls. -/
theorem withoutNulls_eq_self : s.withoutNulls = s ↔ .null ∉ s.payloads := by
  have hnulls : .null ∉ s.payloads ↔ s.Throughout (Bears (· ≠ .null)) := by
    rw [throughout_bears]
    exact ⟨fun h v hv heq => h (heq ▸ hv), fun h hnull => h .null hnull rfl⟩
  rw [hnulls]
  clear hnulls
  have hall : s.Throughout fun _ => True := throughout_of_forall (fun _ => trivial) s
  induction hall with
  | @intro s here inside ih =>
    have hparts : s.withoutNulls = s ↔ s.Bears (· ≠ .null) ∧
        ∀ r ∈ s.transitions, r.state.withoutNulls = r.state := by
      obtain ⟨planId, version, fingerprint, capturedAt, tokens, places, transitions⟩ := s
      simp only [withoutNulls, StepRecord.withoutNulls_eq_map, mk.injEq, true_and, map_eq_self,
        withoutNull_eq_self]
      refine and_congr_right fun _ => forall₂_congr fun r _ => ?_
      obtain ⟨step, state⟩ := r
      simp only [StepRecord.mk.injEq, true_and]
    rw [hparts]
    constructor
    · rintro ⟨hbears, hstates⟩
      refine .intro hbears fun step id inner hmem => (ih step id inner hmem).1 ?_
      exact state_eq_self.1 (hstates _ hmem) id inner rfl
    · intro h
      refine ⟨h.here, fun r hr => state_eq_self.2 ?_⟩
      obtain ⟨step, state⟩ := r
      rintro token inner rfl
      exact (ih step token inner hr).2 (h.inside hr)

end Snapshot

namespace Engine

variable {e : Engine} {now : Timestamp} {s : Snapshot}

/-- All that a pause captures is of the same time. -/
theorem capturedAt_pause (h : (e.pause now).2 = .ok s) :
    s.Throughout fun s => s.capturedAt = now := by
  have hp := pausable_of_pause h
  rw [pause_eq hp] at h
  obtain rfl := Except.ok.inj h
  exact captured_throughout hp hp fun _ _ => rfl

theorem genuine_of_pause (paused : (e.pause now).2 = .ok s) (time : now.Genuine)
    (plain : ∀ v ∈ s.payloads, v.Plain) : s.Throughout Snapshot.Genuine :=
  ((capturedAt_pause paused).and (Snapshot.throughout_bears.2 plain)).imp
    fun _ ⟨htime, hbears⟩ => ⟨htime ▸ time, hbears⟩

/-- What a net is paused with comes back from a file just if no token in it carries null, and its
document has no more levels than documents may have. -/
theorem file_keeps_iff (paused : (e.pause now).2 = .ok s) (time : now.Genuine)
    (plain : ∀ v ∈ s.payloads, v.Plain) :
    Snapshot.ofFileText? s.fileText = some s ↔
      .null ∉ s.payloads ∧ (Data.ofJson s.toJson).depth ≤ 127 := by
  rw [Snapshot.ofFileText?_fileText (genuine_of_pause paused time plain),
    ← Snapshot.withoutNulls_eq_self]
  split
  · next hdepth =>
    rw [Option.some.injEq]
    exact (and_iff_left hdepth).symm
  · next hdepth => exact ⟨nofun, fun h => absurd h.2 hdepth⟩

def leapNoon : Timestamp := ⟨⟨2024, 2, 29⟩, 12, 0, 0, 5000000⟩

theorem leapNoon_genuine : leapNoon.Genuine :=
  ⟨⟨rfl, by decide, by decide⟩, by decide, by decide, by decide, by decide⟩

theorem toOption_eq_some {ε α : Type} {x : Except ε α} {a : α} : x.toOption = some a ↔ x = .ok a := by
  cases x <;> simp [Except.toOption]

/-- The canteen comes back from a file with the kitchen in it. -/
theorem canteen_file_kept : ∃ (e : Engine) (run : Run) (s : Snapshot), build .standard canteen = .ok e ∧
    e.answer 40 counting (.start ticket) = some run ∧ (run.engine.pause leapNoon).2 = .ok s ∧
    s.nestedCount = 1 ∧ s.payloads = [.str "soup", .str "soup"] ∧
    Snapshot.ofFileText? s.fileText = some s := by
  have hfacts : ((build .standard canteen).toOption.bind fun e =>
      (e.answer 40 counting (.start ticket)).bind fun run =>
        (run.engine.pause leapNoon).2.toOption.map fun s =>
          (s.nestedCount, s.payloads, decide ((Data.ofJson s.toJson).depth ≤ 127))) =
      some (1, [.str "soup", .str "soup"], true) := by
    decide +kernel
  obtain ⟨e, hbuild, hfacts⟩ := Option.bind_eq_some_iff.1 hfacts
  obtain ⟨run, hanswer, hfacts⟩ := Option.bind_eq_some_iff.1 hfacts
  obtain ⟨s, hpause, hfacts⟩ := Option.map_eq_some_iff.1 hfacts
  simp only [Prod.mk.injEq, decide_eq_true_eq] at hfacts
  obtain ⟨hnested, hpayloads, hdepth⟩ := hfacts
  have hpaused := toOption_eq_some.1 hpause
  have hplain : ∀ v ∈ s.payloads, v.Plain := by
    rw [hpayloads]
    exact List.forall_mem_cons.2 ⟨⟨.str _, .str _⟩, List.forall_mem_singleton.2 ⟨.str _, .str _⟩⟩
  refine ⟨e, run, s, toOption_eq_some.1 hbuild, hanswer, hpaused, hnested, hpayloads, ?_⟩
  refine (file_keeps_iff hpaused leapNoon_genuine hplain).2 ⟨?_, hdepth⟩
  rw [hpayloads]
  decide

def blank : Token := ⟨⟨0⟩, some .null, none⟩

/-- A file forgets that a work item carries null. -/
theorem blank_forgotten : ∃ (e : Engine) (run : Run) (s s' : Snapshot),
    build .standard kitchen = .ok e ∧ e.answer 40 counting (.start blank) = some run ∧
    (run.engine.pause leapNoon).2 = .ok s ∧ Snapshot.ofFileText? s.fileText = some s' ∧
    s.tokens = [⟨⟨0⟩, some .null, none⟩] ∧ s'.tokens = [⟨⟨0⟩, none, none⟩] ∧
    Snapshot.ofFileText? s.fileText ≠ some s := by
  have hfacts : ((build .standard kitchen).toOption.bind fun e =>
      (e.answer 40 counting (.start blank)).bind fun run =>
        (run.engine.pause leapNoon).2.toOption.map fun s =>
          (s.tokens, s.withoutNulls.tokens, s.payloads,
            decide ((Data.ofJson s.toJson).depth ≤ 127))) =
      some ([⟨⟨0⟩, some .null, none⟩], [⟨⟨0⟩, none, none⟩], [.null], true) := by
    decide +kernel
  obtain ⟨e, hbuild, hfacts⟩ := Option.bind_eq_some_iff.1 hfacts
  obtain ⟨run, hanswer, hfacts⟩ := Option.bind_eq_some_iff.1 hfacts
  obtain ⟨s, hpause, hfacts⟩ := Option.map_eq_some_iff.1 hfacts
  simp only [Prod.mk.injEq, decide_eq_true_eq] at hfacts
  obtain ⟨htokens, hlost, hpayloads, hdepth⟩ := hfacts
  have hpaused := toOption_eq_some.1 hpause
  have hplain : ∀ v ∈ s.payloads, v.Plain := by
    rw [hpayloads]
    exact List.forall_mem_singleton.2 ⟨.null, .null⟩
  have hread := Snapshot.ofFileText?_fileText (genuine_of_pause hpaused leapNoon_genuine hplain)
  rw [if_pos hdepth] at hread
  refine ⟨e, run, s, s.withoutNulls, toOption_eq_some.1 hbuild, hanswer, hpaused, hread, htokens, hlost,
    fun hsame => ?_⟩
  have hnone := Snapshot.withoutNulls_eq_self.1 (Option.some.inj (hread.symm.trans hsame))
  rw [hpayloads] at hnone
  exact hnone List.mem_cons_self

end Engine
end RecipeNet
