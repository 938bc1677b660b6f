import RecipeNet.Proofs.Json.Ordered
import RecipeNet.Proofs.Snapshot.Document

/-!
A plan's text tells which plan it is: the plan is read from it again, whatever its names are and
however deeply plans are nested.
-/

namespace RecipeNet

open Data (ofJson ofFields)

/-- A property that every plan has if all plans nested in it have it. -/
theorem Plan.nested_induction {P : Plan → Prop}
    (h : ∀ p : Plan, (∀ s ∈ p.steps, ∀ inner results, s.kind = .nested inner results → P inner) → P p)
    (p : Plan) : P p :=
  h p fun s hs inner results hkind =>
    have : sizeOf inner < sizeOf p := by
      obtain ⟨id, version, places, steps⟩ := p
      obtain ⟨step, name, inputs, outputs, kind⟩ := s
      dsimp only at hs hkind
      subst hkind
      have hlt := List.sizeOf_lt_of_mem hs
      simp only [StepSpec.mk.sizeOf_spec, StepKind.nested.sizeOf_spec] at hlt
      simp only [Plan.mk.sizeOf_spec]
      omega
    nested_induction h inner
termination_by sizeOf p

theorem StepSpec.toJsons_eq_map (steps : List StepSpec) : toJsons steps = steps.map toJson := by
  induction steps with
  | nil => rfl
  | cons s rest ih => rw [toJsons, ih, List.map_cons]

theorem StepKind.toFields_distinct (kind : StepKind) : (kind.toFields.map (·.1)).Nodup := by
  cases kind with
  | nested plan results => rw [toFields]; split <;> simp
  | _ => simp [toFields]

/-- The fields of a kind are no fields of the step itself. -/
theorem StepKind.toFields_others (kind : StepKind) :
    ∀ f ∈ kind.toFields, f.1 ∉ "kind" :: Data.stepNames := by
  cases kind with
  | nested plan results => rw [toFields]; split <;> simp [Data.stepNames]
  | _ => simp [toFields, Data.stepNames]

namespace StepSpec

def ownFields (s : StepSpec) : List (String × Json) :=
  ("id", .str s.id) :: (Json.optionalField "name" s.name ++
    [("inputs", Json.strs s.inputs), ("outputs", Json.strs s.outputs)])

def kindFields (s : StepSpec) : List (String × Json) :=
  ("kind", .str s.kind.text) :: s.kind.toFields

variable (s : StepSpec)

theorem toJson_eq : s.toJson = .obj (s.ownFields ++ s.kindFields) := by
  obtain ⟨id, name, inputs, outputs, kind⟩ := s
  simp [toJson, ownFields, kindFields]

theorem ownFields_named : ∀ f ∈ s.ownFields, f.1 ∈ Data.stepNames := by
  unfold ownFields
  cases s.name <;> simp [Json.optionalField, Data.stepNames]

theorem kindFields_others : ∀ f ∈ s.kindFields, f.1 ∉ Data.stepNames :=
  List.forall_mem_cons.2 ⟨by simp [Data.stepNames],
    fun f hf => List.not_mem_of_not_mem_cons (s.kind.toFields_others f hf)⟩

theorem fields_distinct : ((s.ownFields ++ s.kindFields).map (·.1)).Nodup := by
  rw [List.map_append, List.nodup_append']
  refine ⟨?_, List.nodup_cons.2 ⟨fun hkind => ?_, s.kind.toFields_distinct⟩, fun name hown hkind => ?_⟩
  · unfold ownFields
    cases s.name <;> simp [Json.optionalField]
  · obtain ⟨f, hf, hname⟩ := List.mem_map.1 hkind
    exact s.kind.toFields_others f hf (hname ▸ List.mem_cons_self)
  · obtain ⟨f, hf, rfl⟩ := List.mem_map.1 hown
    obtain ⟨g, hg, hname⟩ := List.mem_map.1 hkind
    exact s.kindFields_others g hg (hname ▸ s.ownFields_named f hf)

end StepSpec

/-! ### What is written is exact -/

namespace Json

theorem exact_optional (name : String) (s : Option String) :
    ∀ f ∈ optionalField name s, f.2.Exact := by
  cases s with
  | none => exact nofun
  | some s => exact List.forall_mem_singleton.2 (.str s)

theorem exact_strs (items : List String) : (strs items).Exact :=
  .list fun s _ => .str s

/-- Numbers of 64 bits are exact. -/
theorem exact_nat {n : Nat} (h : n < 2 ^ 64) : (Json.int n).Exact :=
  .int (by omega) (by omega)

end Json

theorem PlaceSpec.exact_toJson (p : PlaceSpec) : p.toJson.Exact := by
  have hlabel := Json.exact_optional "classification" p.label
  exact .obj (List.forall_mem_cons.2 ⟨.str _, List.forall_mem_cons.2 ⟨.str _, hlabel⟩⟩)

namespace ResultMap

theorem eq_empty {m : ResultMap} (h : m.isEmpty) : m = .empty := by
  obtain ⟨entries, sorted⟩ := m
  obtain rfl : entries = [] := List.isEmpty_iff.1 h
  rfl

theorem insertEntry_last {name : String} (output : UInt64) {es : List (String × UInt64)}
    (h : ∀ e ∈ es, e.1 < name) : insertEntry name output es = es ++ [(name, output)] := by
  induction es with
  | nil => rfl
  | cons e rest ih =>
    obtain ⟨he, hrest⟩ := List.forall_mem_cons.1 h
    have hne : ¬ name = e.1 := fun heq => String.lt_irrefl name (heq ▸ he)
    rw [insertEntry, if_neg (String.lt_asymm he), if_neg hne, ih hrest, List.cons_append]

/-- A map is what its entries make. -/
theorem ofList_entries (m : ResultMap) : ofList m.entries = m := by
  have hfold : ∀ (es : List (String × UInt64)) (before : ResultMap),
      (before.entries ++ es).Pairwise (·.1 < ·.1) →
      (es.foldl (fun m e => m.insert e.1 e.2) before).entries = before.entries ++ es := by
    intro es
    induction es with
    | nil => exact fun before _ => (List.append_nil _).symm
    | cons e rest ih =>
      intro before sorted
      have hlast : ∀ b ∈ before.entries, b.1 < e.1 := fun b hb =>
        (List.pairwise_append.1 sorted).2.2 b hb e List.mem_cons_self
      have hinsert : (before.insert e.1 e.2).entries = before.entries ++ [e] :=
        insertEntry_last e.2 hlast
      have hmoved : before.entries ++ e :: rest = (before.entries ++ [e]) ++ rest := by
        rw [List.append_assoc, List.singleton_append]
      rw [hmoved, ← hinsert] at sorted ⊢
      exact ih (before.insert e.1 e.2) sorted
  have hentries := hfold m.entries .empty m.sorted
  obtain ⟨entries, sorted⟩ := m
  exact ResultMap.mk.injEq .. |>.mpr hentries

end ResultMap

theorem ResultMap.exact_toJson (m : ResultMap) : m.toJson.Exact :=
  .obj (List.forall_mem_map.2 fun e _ => Json.exact_nat e.2.toNat_lt)

theorem StepSpec.exact_toJson {s : StepSpec}
    (inner : ∀ plan results, s.kind = .nested plan results → plan.toJson.Exact) :
    s.toJson.Exact := by
  have hkind : ∀ f ∈ s.kind.toFields, f.2.Exact := by
    cases hkind : s.kind with
    | pass output => exact List.forall_mem_singleton.2 (Json.exact_nat output.toNat_lt)
    | split => exact nofun
    | join => exact nofun
    | task activity => exact List.forall_mem_singleton.2 (.str _)
    | nested plan results =>
      refine List.forall_mem_cons.2 ⟨inner plan results hkind, ?_⟩
      split
      · exact nofun
      · exact List.forall_mem_singleton.2 results.exact_toJson
  have hown : ∀ f ∈ s.ownFields, f.2.Exact := by
    refine List.forall_mem_cons.2 ⟨.str _, List.forall_mem_append.2 ⟨Json.exact_optional _ _, ?_⟩⟩
    exact List.forall_mem_cons.2 ⟨Json.exact_strs _, List.forall_mem_singleton.2 (Json.exact_strs _)⟩
  rw [s.toJson_eq]
  exact .obj (List.forall_mem_append.2 ⟨hown, List.forall_mem_cons.2 ⟨.str _, hkind⟩⟩)

theorem Plan.exact_toJson (p : Plan) : p.toJson.Exact := by
  induction p using Plan.nested_induction with
  | h p ih =>
    obtain ⟨id, version, places, steps⟩ := p
    have hversion : version.toNat < 2 ^ 64 := Nat.lt_trans version.toNat_lt (by decide)
    have hplaces : (Json.arr (places.map PlaceSpec.toJson)).Exact :=
      .list fun p _ => p.exact_toJson
    have hsteps : (Json.arr (steps.map StepSpec.toJson)).Exact :=
      .list fun s hs => StepSpec.exact_toJson fun plan results => ih s hs plan results
    rw [toJson, StepSpec.toJsons_eq_map]
    exact .cons (.str _) (.cons (Json.exact_nat hversion) (.cons hplaces (.cons hsteps .nil)))

/-! ### What is written is read -/

namespace Data

variable {f : Json → Json}

theorem strs?_rearranged (hf : Json.Rearranges f) (items : List String) :
    strs? (ofJson (f (Json.strs items))) = some items := by
  have hmap : strs? (ofJson (f (Json.strs items))) = list? str? (ofJson (.arr (items.map .str))) := by
    have hlist : ∀ v, strs? v = list? str? v := fun v => by cases v <;> rfl
    rw [Json.strs, hf.list, funext fun s => hf.str s, hlist]
  rw [hmap, list?_of_each fun s _ => str?_ofJson s]

theorem role?_text (within : Bool) (role : Role) : role? within (.str role.text) = some role := by
  cases role <;> rfl

theorem placeSpec?_rearranged (hf : Json.Rearranges f) (within : Bool) (p : PlaceSpec) :
    placeSpec? within (ofJson (f p.toJson)) = some p := by
  obtain ⟨id, role, label⟩ := p
  obtain ⟨found, hfound, hof⟩ := @fields?_rearranged f hf ["id", "role", "classification"]
    (("id", .str id) :: ("role", .str role.text) ::
      Json.optionalField "classification" label) (by cases label <;> simp [Json.optionalField])
  have hid : found.required "id" str? = some id :=
    hof.required (v := .str id) (by simp [hf.str]) (by simp) rfl
  have hrole : found.optional "role" .normal (role? within) = some role :=
    hof.optional (v := .str role.text) (by simp [hf.str]) (by simp) (role?_text within role)
  have hlabel : found.optional "classification" none optionalStr? = some label := by
    cases label with
    | none => exact hof.omitted (by simp [Json.optionalField])
    | some s =>
      exact hof.optional (v := .str s) (by simp [hf.str, Json.optionalField]) (by simp) rfl
  rw [PlaceSpec.toJson, placeSpec?, hfound]
  simp only [Option.bind_eq_bind, Option.bind_some, hid, hrole, hlabel]

theorem word64?_toNat (n : UInt64) : word64? (ofJson (.int n.toNat)) = some n := by
  have hlt : n.toNat < Nat.pow 2 64 := n.toNat_lt
  rw [ofJson, word64?, nat?, Int.toNat_natCast, if_pos ⟨Int.natCast_nonneg _, hlt⟩, Option.map_some,
    UInt64.ofNat_toNat]

theorem resultMap?_rearranged (hf : Json.Rearranges f) (m : ResultMap) :
    resultMap? (ofJson (f m.toJson)) = some m := by
  have hsame : f m.toJson = m.toJson := by
    rw [ResultMap.toJson, hf.sorted]
    · exact List.pairwise_map.2 m.sorted
    · exact List.forall_mem_map.2 fun _ _ => hf.int _
  have hentries : ∀ (entry : Data × Data → Option (String × UInt64)) (es : List (String × UInt64)),
      (∀ k n, entry (str k, ofJson (.int (UInt64.toNat n))) = some (k, n)) →
      (es.map fun e => (str e.1, ofJson (.int e.2.toNat))).mapM entry = some es := by
    intro entry es hentry
    induction es with
    | nil => rfl
    | cons e rest ih =>
      rw [List.map_cons, List.mapM_cons, ih, hentry]
      rfl
  rw [hsame, ResultMap.toJson, ofJson_obj, List.map_map, resultMap?]
  simp only [Function.comp_def]
  rw [hentries _ m.entries fun k n => by simp [str?, word64?_toNat], Option.bind_eq_bind,
    Option.bind_some, ResultMap.ofList_entries]

variable {readPlan : Data → Option Plan}

/-- A kind is read from the entries of a step that are not the step's own. -/
theorem stepKindWith?_rearranged (hf : Json.Rearranges f) {kind : StepKind}
    {fields : List (String × Json)}
    (hfields : fields.Perm (("kind", .str kind.text) ::
      kind.toFields.map fun g => (g.1, f g.2)))
    (inner : ∀ plan results, kind = .nested plan results →
      readPlan (ofJson (f plan.toJson)) = some plan) :
    stepKindWith? readPlan (ofFields fields) = some kind := by
  have hnew : "kind" ∉ kind.toFields.map (·.1) := fun hkind => by
    obtain ⟨g, hg, hname⟩ := List.mem_map.1 hkind
    exact kind.toFields_others g hg (hname ▸ List.mem_cons_self)
  have hdistinct : (fields.map (·.1)).Nodup := by
    rw [(hfields.map _).nodup_iff, List.map_cons, List.map_map]
    exact List.nodup_cons.2 ⟨hnew, kind.toFields_distinct⟩
  have honly : onlyEntry? "kind" (ofFields fields) = some (some (ofJson (.str kind.text))) :=
    onlyEntry?_ofFields hdistinct (hfields.mem_iff.2 List.mem_cons_self)
  have hchoice : choice? true kindNames (ofJson (.str kind.text)) = some kind.text := by
    cases kind <;> rfl
  -- The tag is read first; the other entries are those of the kind, in whatever order.
  have hrest : (fields.filter (·.1 ∉ ["kind"])).Perm
      (kind.toFields.map fun g => (g.1, f g.2)) := by
    refine (hfields.filter _).trans (.of_eq ?_)
    rw [List.filter_cons_of_neg (by simp), List.filter_eq_self]
    refine List.forall_mem_map.2 fun g hg => decide_eq_true fun hname => ?_
    exact kind.toFields_others g hg (List.mem_singleton.1 hname ▸ List.mem_cons_self)
  have hfound : ∀ names, ∃ found, fieldsOfEntries? names (ofFields (fields.filter (·.1 ∉ ["kind"]))) =
      some found ∧ found.Of names (kind.toFields.map fun g => (g.1, f g.2)) := by
    intro names
    obtain ⟨found, hread, hof⟩ := exists_fieldsOfEntries names
      ((List.filter_sublist.map _).nodup hdistinct)
    exact ⟨found, hread, hof.perm hrest⟩
  rw [stepKindWith?, honly]
  simp only [Option.bind_eq_bind, Option.bind_some, hchoice, filter_not_ofFields]
  cases kind with
  | pass output =>
    obtain ⟨found, hread, hof⟩ := hfound ["output"]
    have houtput : found.optional "output" 0 word64? = some output :=
      hof.optional (v := .int output.toNat) (by simp [StepKind.toFields, hf.int]) (by simp)
        (word64?_toNat output)
    simp only [StepKind.text, hread, Option.bind_some, houtput]
  | split => rfl
  | join => rfl
  | nested plan results =>
    obtain ⟨found, hread, hof⟩ := hfound ["workplan", "results"]
    have hplan : found.required "workplan" readPlan = some plan :=
      hof.required (v := f plan.toJson) (by simp [StepKind.toFields]) (by simp)
        (inner plan results rfl)
    have hresults : found.optional "results" .empty resultMap? = some results := by
      by_cases hempty : results.isEmpty
      · obtain rfl : results = .empty := ResultMap.eq_empty hempty
        exact hof.omitted (by simp [StepKind.toFields, hempty])
      · exact hof.optional (v := f results.toJson) (by simp [StepKind.toFields, hempty])
          (by simp) (resultMap?_rearranged hf results)
    simp only [StepKind.text, hread, Option.bind_some, hplan, hresults]
  | task activity =>
    obtain ⟨found, hread, hof⟩ := hfound ["activity"]
    have hactivity : found.required "activity" str? = some activity :=
      hof.required (v := .str activity) (by simp [StepKind.toFields, hf.str]) (by simp) rfl
    simp only [StepKind.text, hread, Option.bind_some, hactivity]

theorem stepSpecWith?_rearranged (hf : Json.Rearranges f) {s : StepSpec}
    (inner : ∀ plan results, s.kind = .nested plan results →
      readPlan (ofJson (f plan.toJson)) = some plan) :
    stepSpecWith? readPlan (ofJson (f s.toJson)) = some s := by
  obtain ⟨fields, hkept, hperm⟩ := hf.obj s.fields_distinct
  rw [List.map_append] at hperm
  have hnames : (fields.map (·.1)).Nodup := by
    rw [(hperm.map _).nodup_iff, ← List.map_append, List.map_map]
    exact s.fields_distinct
  have hkeys : (ofFields fields).all (·.1.isKey) = true := by
    rw [ofFields_eq_map, List.all_map, List.all_eq_true]
    exact fun _ _ => rfl
  have hown : (fields.filter (·.1 ∈ stepNames)).Perm
      (s.ownFields.map fun g => (g.1, f g.2)) := by
    refine (hperm.filter _).trans (.of_eq ?_)
    rw [List.filter_append, List.filter_eq_self.2, List.filter_eq_nil_iff.2, List.append_nil]
    · exact List.forall_mem_map.2 fun g hg => by simpa using s.kindFields_others g hg
    · exact List.forall_mem_map.2 fun g hg => decide_eq_true (s.ownFields_named g hg)
  have hothers : (fields.filter (·.1 ∉ stepNames)).Perm
      (s.kindFields.map fun g => (g.1, f g.2)) := by
    refine (hperm.filter _).trans (.of_eq ?_)
    rw [List.filter_append, List.filter_eq_nil_iff.2, List.filter_eq_self.2, List.nil_append]
    · exact List.forall_mem_map.2 fun g hg => decide_eq_true (s.kindFields_others g hg)
    · exact List.forall_mem_map.2 fun g hg => by simpa using s.ownFields_named g hg
  obtain ⟨found, hread, hof'⟩ := exists_fieldsOfEntries stepNames
    ((List.filter_sublist.map _).nodup hnames)
  have hof := hof'.perm hown
  rw [s.toJson_eq, hkept, ofJson, stepSpecWith?, filter_ofFields, filter_not_ofFields]
  obtain ⟨id, name, inputs, outputs, kind⟩ := s
  unfold StepSpec.ownFields at hof
  have hid : found.required "id" str? = some id :=
    hof.required (v := .str id) (by simp [hf.str]) (by decide) rfl
  have hname : found.optional "name" none optionalStr? = some name := by
    cases name with
    | none => exact hof.omitted (by simp [Json.optionalField])
    | some name =>
      exact hof.optional (v := .str name) (by simp [hf.str, Json.optionalField]) (by decide) rfl
  have hinputs : found.optional "inputs" [] strs? = some inputs :=
    hof.optional (v := f (Json.strs inputs)) (by simp) (by decide) (strs?_rearranged hf inputs)
  have houtputs : found.optional "outputs" [] strs? = some outputs :=
    hof.optional (v := f (Json.strs outputs)) (by simp) (by decide) (strs?_rearranged hf outputs)
  rw [StepSpec.kindFields, List.map_cons, hf.str] at hothers
  have hkind := stepKindWith?_rearranged hf hothers inner
  simp only [hkeys, Bool.not_true, Bool.false_eq_true, if_false, Option.bind_eq_bind, hread,
    Option.bind_some, hid, hname, hinputs, houtputs, hkind]

/-- Plans within a plan are nested less deeply. -/
theorem rank_nested (hf : Json.Rearranges f) {p inner : Plan} {s : StepSpec} {results : ResultMap}
    (hs : s ∈ p.steps) (hkind : s.kind = .nested inner results) :
    (ofJson (f inner.toJson)).rank < (ofJson (f p.toJson)).rank := by
  have hfield : ("workplan", inner.toJson) ∈ s.ownFields ++ s.kindFields := by
    simp [StepSpec.kindFields, hkind, StepKind.toFields]
  have hstep : (ofJson (f inner.toJson)).rank < (ofJson (f s.toJson)).rank := by
    rw [s.toJson_eq]
    exact rank_lt_rearranged hf s.fields_distinct hfield
  have hitem : (ofJson (f s.toJson)).rank <
      (ofJson (f (.arr (p.steps.map StepSpec.toJson)))).rank := by
    rw [hf.list]
    exact rank_lt_item (List.mem_map.2 ⟨s, hs, rfl⟩)
  have hlist : (ofJson (f (.arr (p.steps.map StepSpec.toJson)))).rank <
      (ofJson (f p.toJson)).rank := by
    obtain ⟨id, version, places, steps⟩ := p
    rw [Plan.toJson, StepSpec.toJsons_eq_map]
    exact rank_lt_rearranged hf (by simp) (show ("steps", _) ∈ _ by simp)
  omega

/-- A plan is read from its document. -/
theorem planWithin?_rearranged (hf : Json.Rearranges f) (p : Plan) {fuel : Nat} {within : Bool}
    (enough : (ofJson (f p.toJson)).rank < fuel) :
    planWithin? fuel within (ofJson (f p.toJson)) = some p := by
  induction p using Plan.nested_induction generalizing fuel within with
  | h p ih =>
    obtain ⟨fuel, rfl⟩ : ∃ more, fuel = more + 1 := ⟨fuel - 1, by omega⟩
    have hinner : ∀ s ∈ p.steps, ∀ inner results, s.kind = .nested inner results →
        planWithin? fuel true (ofJson (f inner.toJson)) = some inner := by
      intro s hs inner results hkind
      have hrank := rank_nested hf hs hkind
      exact ih s hs inner results hkind (by omega)
    obtain ⟨id, version, places, steps⟩ := p
    have hplaces : list? (placeSpec? within) (ofJson (f (.arr (places.map PlaceSpec.toJson)))) =
        some places := by
      rw [hf.list]
      exact list?_of_each fun p _ => placeSpec?_rearranged hf within p
    have hsteps : list? (stepSpecWith? (planWithin? fuel true))
        (ofJson (f (.arr (steps.map StepSpec.toJson)))) = some steps := by
      rw [hf.list]
      exact list?_of_each fun s hs => stepSpecWith?_rearranged hf (hinner s hs)
    obtain ⟨found, hread, hof⟩ := @fields?_rearranged f hf ["id", "version", "places", "steps"]
      [("id", .str id), ("version", .int version.toNat),
        ("places", .arr (places.map PlaceSpec.toJson)), ("steps", .arr (steps.map StepSpec.toJson))]
      (by simp)
    have hid : found.required "id" str? = some id :=
      hof.required (v := .str id) (by simp [hf.str]) (by simp) rfl
    have hversion : found.optional "version" 1 word32? = some version :=
      hof.optional (v := .int version.toNat) (by simp [hf.int]) (by simp)
        (word32?_toNat version)
    have hallPlaces : found.optional "places" [] (list? (placeSpec? within)) = some places :=
      hof.optional (by simp) (by simp) hplaces
    have hallSteps : found.optional "steps" [] (list? (stepSpecWith? (planWithin? fuel true))) =
        some steps :=
      hof.optional (by simp) (by simp) hsteps
    rw [Plan.toJson, StepSpec.toJsons_eq_map, planWithin?, hread]
    simp only [Option.bind_eq_bind, Option.bind_some, hid, hversion]
    change ((found.optional "places" [] (list? (placeSpec? within))).bind fun places =>
      (found.optional "steps" [] (list? (stepSpecWith? (planWithin? fuel true)))).bind fun steps =>
        some (Plan.mk id version places steps)) = _
    rw [hallPlaces, Option.bind_some, hallSteps, Option.bind_some]

end Data

namespace Plan

def ofText? (text : String) : Option Plan :=
  ((Json.read? text).bind (·.toJson?)).bind ofJson?

/-- A plan is read from its text. -/
theorem ofText?_text (p : Plan) : ofText? p.text = some p := by
  rw [ofText?, text, Json.read?_compact p.exact_toJson, Option.bind_some, Data.toJson?_ordered,
    Option.bind_some, ofJson?, Data.plan?,
    Data.planWithin?_rearranged Json.ordered_rearranges p (Nat.lt_succ_self _)]

theorem text_injective : Function.Injective text := by
  intro p q h
  have hread := congrArg ofText? h
  rw [ofText?_text, ofText?_text] at hread
  exact Option.some.inj hread

end Plan
end RecipeNet
