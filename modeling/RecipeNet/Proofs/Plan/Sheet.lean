import RecipeNet.Proofs.Plan.Document
import RecipeNet.Proofs.Yaml.Reading

/-!
Sheets that are written for plans. The nodes of a plan hold its document, and the plan is read from
any nodes that do, whatever its names look like and however its plans are nested.
-/

namespace RecipeNet.Plan.Sheet

open Yaml (Node Reading Style scalarValue? plainValue? sameValue resolve valueOf)
open Data (ofJson ofFields)

variable {n root : Node} {v : Json} {s : String}

/-! ### What is written -/

/-- A node that nothing but the document can be read from. -/
def Writes (v : Json) (n : Node) : Prop :=
  ∀ root : Node, root.restores n = true → root.Holds v

theorem restores_scalar {style' : Style} (h : root.restores (.scalar none none style' s) = true) :
    ∃ anchor style, root = .scalar anchor none style s ∧ sameValue style style' s = true := by
  match root, h with
  | .scalar anchor none style t, h =>
    simp only [Node.restores, Bool.and_eq_true, beq_iff_eq] at h
    obtain ⟨rfl, hsame⟩ := h
    exact ⟨anchor, style, rfl, hsame⟩

theorem writes_text (s : String) : Writes (.str s) (textNode s) := by
  intro root h
  obtain ⟨anchor, style, rfl, hsame⟩ := restores_scalar h
  rw [Node.Holds]
  exact ⟨rfl, Yaml.scalarValue?_same hsame (scalarValue?_styleOf s)⟩

theorem writes_word {k : Nat} (h : k < 2 ^ 64) : Writes (.int k) (wordNode (toString k)) := by
  intro root hroot
  obtain ⟨anchor, style, rfl, hsame⟩ := restores_scalar hroot
  rw [sameValue, Yaml.plainValue?_toString h] at hsame
  cases style with
  | plain => exact ⟨k, rfl, h, rfl⟩
  | _ => cases hsame

theorem forall₂_through {α β γ : Type} {R : α → γ → Prop} {S : β → γ → Prop} {T : α → β → Prop}
    (each : ∀ a b c, R a c → S b c → T a b) {as : List α} {bs : List β} {cs : List γ}
    (has : List.Forall₂ R as cs) (hbs : List.Forall₂ S bs cs) : List.Forall₂ T as bs := by
  induction has generalizing bs with
  | nil =>
    cases hbs
    exact .nil
  | cons ha _ ih =>
    cases hbs with
    | cons hb hrest => exact .cons (each _ _ _ ha hb) (ih hrest)

theorem writes_seq {items : List Json} {ns : List Node} (each : List.Forall₂ Writes items ns) :
    Writes (.arr items) (.seq none none ns) := by
  intro root h
  match root, h with
  | .seq anchor none found, h =>
    rw [Node.restores, Yaml.restoresItems_iff] at h
    rw [Node.Holds, Node.holdsItems_iff]
    exact forall₂_through (fun _ m _ hv hm => hv m hm) each h

theorem writes_list {α : Type} {write : α → Json} {node : α → Node} {xs : List α}
    (each : ∀ x ∈ xs, Writes (write x) (node x)) :
    Writes (.arr (xs.map write)) (.seq none none (xs.map node)) :=
  writes_seq (List.forall₂_map_left_iff.2 (List.forall₂_map_right_iff.2 (List.forall₂_same.2 each)))

def WritesField (f : String × Json) (e : String × Node) : Prop :=
  e.1 = f.1 ∧ Writes f.2 e.2

theorem writes_map {fields : List (String × Json)} {es : List (String × Node)}
    (each : List.Forall₂ WritesField fields es) : Writes (.obj fields) (mapNode es) := by
  intro root h
  match root, h with
  | .map anchor none found, h =>
    rw [mapNode, Node.restores, Yaml.restoresEntries_iff, List.forall₂_map_right_iff] at h
    rw [Node.Holds, Node.holdsFields_iff]
    refine forall₂_through (fun f e c hf he => ?_) each h
    exact ⟨hf.1 ▸ writes_text c.1 e.1 he.1, hf.2 e.2 he.2⟩

theorem writes_optional (name : String) (s : Option String) :
    List.Forall₂ WritesField (Json.optionalField name s) (optionalNode name s) := by
  cases s with
  | none => exact .nil
  | some s => exact .cons ⟨rfl, writes_text s⟩ .nil

theorem writes_texts (ss : List String) : Writes (Json.strs ss) (textNodes ss) :=
  writes_list fun s _ => writes_text s

theorem writes_place (p : PlaceSpec) : Writes p.toJson (placeNode p) :=
  writes_map (.cons ⟨rfl, writes_text _⟩ (.cons ⟨rfl, writes_text _⟩ (writes_optional _ _)))

theorem writes_results (m : ResultMap) : Writes m.toJson (resultsNode m) := by
  refine writes_map ?_
  rw [List.forall₂_map_left_iff, List.forall₂_map_right_iff, List.forall₂_same]
  exact fun e _ => ⟨rfl, writes_word e.2.toNat_lt⟩

theorem stepNodes_eq_map (steps : List StepSpec) : stepNodes steps = steps.map stepNode := by
  induction steps with
  | nil => rfl
  | cons s rest ih => rw [stepNodes, ih, List.map_cons]

theorem writes_step {s : StepSpec}
    (inner : ∀ plan results, s.kind = .nested plan results → Writes plan.toJson (planNode plan)) :
    Writes s.toJson (stepNode s) := by
  obtain ⟨id, name, inputs, outputs, kind⟩ := s
  have hkind : List.Forall₂ WritesField kind.toFields (kindEntries kind) := by
    cases kind with
    | pass output => exact .cons ⟨rfl, writes_word output.toNat_lt⟩ .nil
    | split => exact .nil
    | join => exact .nil
    | task activity => exact .cons ⟨rfl, writes_text activity⟩ .nil
    | nested plan results =>
      rw [StepKind.toFields, kindEntries]
      refine .cons ⟨rfl, inner plan results rfl⟩ ?_
      split
      · exact .nil
      · exact .cons ⟨rfl, writes_results results⟩ .nil
  have hrest : List.Forall₂ WritesField
      (("inputs", Json.strs inputs) :: ("outputs", Json.strs outputs) ::
        ("kind", .str kind.text) :: kind.toFields)
      (("inputs", textNodes inputs) :: ("outputs", textNodes outputs) ::
        ("kind", textNode kind.text) :: kindEntries kind) :=
    .cons ⟨rfl, writes_texts inputs⟩ (.cons ⟨rfl, writes_texts outputs⟩
      (.cons ⟨rfl, writes_text kind.text⟩ hkind))
  rw [StepSpec.toJson, stepNode]
  exact writes_map (.cons ⟨rfl, writes_text id⟩ (List.rel_append (writes_optional "name" name) hrest))

theorem writes_plan (p : Plan) : Writes p.toJson (planNode p) := by
  induction p using Plan.nested_induction with
  | h p ih =>
    obtain ⟨id, version, places, steps⟩ := p
    have hversion : version.toNat < 2 ^ 64 := Nat.lt_trans version.toNat_lt (by decide)
    have hsteps : ∀ s ∈ steps, Writes s.toJson (stepNode s) :=
      fun s hs => writes_step fun plan results => ih s hs plan results
    rw [toJson, planNode, StepSpec.toJsons_eq_map, stepNodes_eq_map]
    exact writes_map (.cons ⟨rfl, writes_text id⟩ (.cons ⟨rfl, writes_word hversion⟩
      (.cons ⟨rfl, writes_list fun p _ => writes_place p⟩ (.cons ⟨rfl, writes_list hsteps⟩ .nil))))

/-! ### What is read -/

def Matching (fields : List (String × Json)) (es : List (String × Node)) : Prop :=
  List.Forall₂ (fun f e => e.1 = f.1 ∧ e.2.Holds f.2) fields es

theorem text_of_holds (h : n.Holds (.str s)) : text n = pure s := by
  have hself := Node.resolve_of_holds h
  obtain ⟨anchor, style, rfl, -⟩ := Node.holds_str h
  rw [text, hself]
  rfl

theorem optionalText_of_holds (h : n.Holds (.str s)) : optionalText n = pure (some s) := by
  have hself := Node.resolve_of_holds h
  obtain ⟨anchor, style, rfl, hvalue⟩ := Node.holds_str h
  have hthere : isMissing? none style s = some false := by
    by_cases hplain : style = .plain
    · subst hplain
      exact congrArg some (Yaml.not_null_of_plain hvalue)
    · exact if_pos hplain
  rw [optionalText, hself, pure_bind]
  simp only [hthere]

theorem role_of_holds {role : Role} (h : n.Holds (.str role.text)) : Sheet.role n = pure role := by
  have hself := Node.resolve_of_holds h
  obtain ⟨anchor, style, rfl, -⟩ := Node.holds_str h
  rw [Sheet.role, hself, pure_bind]
  cases role <;> rfl

theorem version_of_holds {version : UInt32} (h : n.Holds (.int version.toNat)) :
    Sheet.version n = pure version := by
  have hself := Node.resolve_of_holds h
  obtain ⟨anchor, k, hk, -, rfl⟩ := Node.holds_int h
  obtain rfl : version.toNat = k := by exact_mod_cast hk
  have hread : Yaml.unsignedOf? (Nat.pow 2 32) (toString version.toNat).toList = some version.toNat := by
    rw [Yaml.toList_toString]
    exact Yaml.unsignedOf?_decimal version.toNat_lt
  rw [Sheet.version, hself, pure_bind]
  simp only [true_or, if_true, hread, UInt32.ofNat_toNat]

theorem items_of_holds {items : List Json} (h : n.Holds (.arr items)) :
    ∃ ns, Sheet.items n = pure ns ∧ List.Forall₂ (fun v m => Node.Holds v m) items ns := by
  have hself := Node.resolve_of_holds h
  obtain ⟨anchor, ns, rfl, hns⟩ := Node.holds_arr h
  refine ⟨ns, ?_, hns⟩
  rw [Sheet.items, hself]
  rfl

theorem entries_of_holds {fields : List (String × Json)} (h : n.Holds (.obj fields)) :
    ∃ es, entries n = pure es ∧ Matching fields es := by
  have hself := Node.resolve_of_holds h
  obtain ⟨anchor, found, rfl, hfound⟩ := Node.holds_obj h
  have hall : ∃ es, (found.mapM fun e => do
      let k ← text e.1
      pure (k, e.2)) = (pure es : Reading _) ∧ Matching fields es := by
    clear h hself
    induction hfound with
    | nil => exact ⟨[], rfl, .nil⟩
    | @cons f e _ _ he _ ih =>
      obtain ⟨es, hread, hes⟩ := ih
      refine ⟨(f.1, e.2) :: es, ?_, .cons ⟨rfl, he.2⟩ hes⟩
      rw [List.mapM_cons, hread, text_of_holds he.1]
      simp only [pure_bind]
  rw [entries, hself]
  exact hall

namespace Matching

variable {fields : List (String × Json)} {es : List (String × Node)} {name : String} {α : Type}
  {x default : α} {read : Node → Reading α}

theorem names (h : Matching fields es) : es.map (·.1) = fields.map (·.1) := by
  induction h with
  | nil => rfl
  | cons he _ ih => rw [List.map_cons, List.map_cons, he.1, ih]

theorem namesOnce (h : Matching fields es) (distinct : (fields.map (·.1)).Nodup)
    (names : List String) : namesOnce names es = true := by
  rw [← h.names] at distinct
  refine List.all_eq_true.2 fun name _ => decide_eq_true ?_
  have hcount := List.nodup_iff_count_le_one.1 distinct name
  rwa [List.count, List.countP_map] at hcount

theorem lookup (h : Matching fields es) (distinct : (fields.map (·.1)).Nodup)
    (hmem : (name, v) ∈ fields) : ∃ n : Node, es.lookup name = some n ∧ n.Holds v := by
  induction h with
  | nil => cases hmem
  | @cons f e fields es he _ ih =>
    obtain ⟨hnew, hrest⟩ := List.nodup_cons.1 distinct
    rw [List.lookup_cons, he.1]
    rcases List.mem_cons.1 hmem with rfl | hmem
    · exact ⟨e.2, by rw [beq_self_eq_true], he.2⟩
    · have hne : (name == f.1) = false := by
        rw [beq_eq_false_iff_ne]
        rintro rfl
        exact hnew (List.mem_map.2 ⟨_, hmem, rfl⟩)
      rw [hne]
      exact ih hrest hmem

theorem required (h : Matching fields es) (distinct : (fields.map (·.1)).Nodup)
    (hmem : (name, v) ∈ fields) (hread : ∀ n : Node, n.Holds v → read n = pure x) :
    required es name read = pure x := by
  obtain ⟨n, hn, hv⟩ := h.lookup distinct hmem
  rw [Sheet.required, hn]
  exact hread n hv

theorem optional (h : Matching fields es) (distinct : (fields.map (·.1)).Nodup)
    (hmem : (name, v) ∈ fields) (hread : ∀ n : Node, n.Holds v → read n = pure x) :
    optional es name default read = pure x := by
  obtain ⟨n, hn, hv⟩ := h.lookup distinct hmem
  rw [Sheet.optional, hn]
  exact hread n hv

theorem omitted (h : Matching fields es) (hnone : name ∉ fields.map (·.1)) :
    Sheet.optional es name default read = pure default := by
  have hlookup : es.lookup name = none := by
    rw [List.lookup_eq_none_iff]
    intro e he
    rw [bne_iff_ne]
    rintro rfl
    exact hnone (h.names ▸ List.mem_map_of_mem he)
  rw [Sheet.optional, hlookup]

end Matching

theorem texts_of_holds {ss : List String} (h : n.Holds (Json.strs ss)) : texts n = pure ss := by
  obtain ⟨ns, hns, heach⟩ := items_of_holds h
  rw [texts, hns, pure_bind]
  rw [List.forall₂_map_left_iff] at heach
  exact Yaml.mapM_pure_of_each (heach.imp fun _ _ => text_of_holds)

theorem placeSpec_of_holds {p : PlaceSpec} (h : n.Holds p.toJson) : placeSpec n = pure p := by
  obtain ⟨id, role, label⟩ := p
  obtain ⟨es, hes, hmatch⟩ := entries_of_holds h
  have hdistinct : ((("id", Json.str id) :: ("role", .str role.text) ::
      Json.optionalField "classification" label).map (·.1)).Nodup := by
    cases label <;> simp [Json.optionalField]
  have hid : required es "id" text = pure id :=
    hmatch.required hdistinct (by simp) fun _ => text_of_holds
  have hrole : optional es "role" .normal Sheet.role = pure role :=
    hmatch.optional hdistinct (by simp) fun _ => role_of_holds
  have hlabel : optional es "classification" none optionalText = pure label := by
    cases label with
    | none => exact hmatch.omitted (by simp [Json.optionalField])
    | some s =>
      exact hmatch.optional hdistinct (by simp [Json.optionalField]) fun _ => optionalText_of_holds
  rw [placeSpec, hes]
  simp only [pure_bind, hmatch.namesOnce hdistinct, Bool.not_true, Bool.false_eq_true, if_false, hid,
    hrole, hlabel]

/-- The entries of a step that are not the step's own are read as they are. -/
theorem others_of_matching {fields : List (String × Json)} {es : List (String × Node)}
    {depth : Nat} (h : Matching fields es)
    (shallow : ∀ f ∈ fields, (ofJson f.2).depth ≤ depth) :
    (es.mapM fun e => do
      let v ← valueOf depth e.2
      pure (Data.str e.1, v)) = (pure (ofFields fields) : Reading _) := by
  rw [Data.ofFields_eq_map]
  refine Yaml.mapM_pure_of_each (List.forall₂_map_left_iff.2 ?_)
  induction h with
  | nil => exact .nil
  | @cons f e _ _ he _ ih =>
    obtain ⟨hf, hrest⟩ := List.forall_mem_cons.1 shallow
    refine .cons ?_ (ih hrest)
    rw [Yaml.valueOf_of_holds he.2, Yaml.shallow?, if_pos hf, he.1]
    rfl

theorem others_filtered {s : StepSpec} {es : List (String × Node)}
    (h : Matching (s.ownFields ++ s.kindFields) es) :
    Matching s.kindFields (es.filter (·.1 ∉ Data.stepNames)) := by
  have hfilter : (s.ownFields ++ s.kindFields).filter (·.1 ∉ Data.stepNames) = s.kindFields := by
    rw [List.filter_append, List.filter_eq_nil_iff.2, List.filter_eq_self.2, List.nil_append]
    · exact fun f hf => decide_eq_true (s.kindFields_others f hf)
    · exact fun f hf => by simpa using s.ownFields_named f hf
  rw [← hfilter]
  refine List.rel_filter (fun f e he => ?_) h
  simp only [he.1]

theorem stepSpec_of_holds {s : StepSpec} (h : n.Holds s.toJson)
    (shallow : (ofJson s.toJson).depth ≤ depthLimit - 2) : stepSpec n = pure s := by
  rw [s.toJson_eq] at h shallow
  obtain ⟨es, hes, hmatch⟩ := entries_of_holds h
  have hdistinct := s.fields_distinct
  have hparts : ∀ f ∈ s.kindFields, (ofJson f.2).depth ≤ depthLimit - 3 := fun f hf =>
    Data.depth_obj_le.1 shallow f (List.mem_append_right _ hf)
  have hothers := others_of_matching (others_filtered hmatch) hparts
  have hkind : Data.stepKindWith? Data.nestedPlan? (ofFields s.kindFields) = some s.kind := by
    refine Data.stepKindWith?_rearranged Json.id_rearranges (.of_eq ?_) fun plan results _ => ?_
    · exact (congrArg _ (List.map_id _)).symm
    · exact Data.planWithin?_rearranged Json.id_rearranges plan (Nat.lt_succ_self _)
  obtain ⟨id, name, inputs, outputs, kind⟩ := s
  have hid : required es "id" text = pure id :=
    hmatch.required hdistinct (by simp [StepSpec.ownFields]) fun _ => text_of_holds
  have hname : optional es "name" none optionalText = pure name := by
    cases name with
    | none =>
      refine hmatch.omitted fun hin => ?_
      rw [List.map_append, List.mem_append] at hin
      rcases hin with hin | hin
      · simp [StepSpec.ownFields, Json.optionalField] at hin
      · obtain ⟨f, hf, hfname⟩ := List.mem_map.1 hin
        exact StepSpec.kindFields_others _ f hf (by simp [hfname, Data.stepNames])
    | some name =>
      exact hmatch.optional hdistinct (by simp [StepSpec.ownFields, Json.optionalField])
        fun _ => optionalText_of_holds
  have hinputs : optional es "inputs" [] texts = pure inputs :=
    hmatch.optional hdistinct (by simp [StepSpec.ownFields]) fun _ => texts_of_holds
  have houtputs : optional es "outputs" [] texts = pure outputs :=
    hmatch.optional hdistinct (by simp [StepSpec.ownFields]) fun _ => texts_of_holds
  rw [stepSpec, hes]
  simp only [pure_bind, hmatch.namesOnce hdistinct, Bool.not_true, Bool.false_eq_true, if_false, hid,
    hname, hinputs, houtputs, hothers, hkind]

/-- A plan is read from nodes that hold its document. -/
theorem plan_of_holds {p : Plan} (h : root.Holds p.toJson)
    (shallow : (ofJson p.toJson).depth ≤ depthLimit) : plan root = pure p := by
  obtain ⟨id, version, places, steps⟩ := p
  rw [toJson, StepSpec.toJsons_eq_map] at h shallow
  obtain ⟨es, hes, hmatch⟩ := entries_of_holds h
  have hid : required es "id" text = pure id :=
    hmatch.required (by simp) (by simp) fun _ => text_of_holds
  have hversion : optional es "version" 1 Sheet.version = pure version :=
    hmatch.optional (by simp) (by simp) fun _ => version_of_holds
  have hplaces : optional es "places" [] (fun n => do (← items n).mapM placeSpec) = pure places := by
    refine hmatch.optional (by simp) (.tail _ (.tail _ (.head _))) fun n hn => ?_
    obtain ⟨ns, hns, heach⟩ := items_of_holds hn
    rw [hns, pure_bind]
    exact Yaml.mapM_pure_of_each ((List.forall₂_map_left_iff.1 heach).imp fun _ _ => placeSpec_of_holds)
  have hshallow : ∀ s ∈ steps, (ofJson s.toJson).depth ≤ depthLimit - 2 :=
    Data.depth_list_le.1 (Data.depth_obj_le.1 shallow ("steps", _) (.tail _ (.tail _ (.tail _ (.head _)))))
  have hsteps : optional es "steps" [] (fun n => do (← items n).mapM stepSpec) = pure steps := by
    refine hmatch.optional (by simp) (.tail _ (.tail _ (.tail _ (.head _)))) fun n hn => ?_
    obtain ⟨ns, hns, heach⟩ := items_of_holds hn
    have hboth := (List.forall₂_and_left steps ns).2 ⟨hshallow, List.forall₂_map_left_iff.1 heach⟩
    rw [hns, pure_bind]
    exact Yaml.mapM_pure_of_each (hboth.imp fun s n hs => stepSpec_of_holds hs.2 hs.1)
  rw [plan, hes]
  simp only [pure_bind, hmatch.namesOnce (by simp), Bool.not_true, Bool.false_eq_true, if_false, hid,
    hversion, hplaces, hsteps]

end RecipeNet.Plan.Sheet
