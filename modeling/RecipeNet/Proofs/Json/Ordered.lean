import RecipeNet.Proofs.Json.Data

/-!
JSON values with their fields in order of name, as they are when they have been read. The fields of
a record are found in its object whatever their order, so what is proved of reading holds of every
way to rearrange them.
-/

namespace RecipeNet
namespace Json

mutual
/-- A value with the fields of its objects in order of name. Of several with one name the last
counts. -/
def ordered : Json → Json
  | .arr items => .arr (orderedItems items)
  | .obj fields => .obj (orderedFields fields [])
  | v => v

def orderedItems : List Json → List Json
  | [] => []
  | v :: rest => ordered v :: orderedItems rest

def orderedFields : List (String × Json) → List (String × Json) → List (String × Json)
  | [], before => before
  | (k, v) :: rest, before => orderedFields rest (insertField k (ordered v) before)
end

theorem orderedItems_eq_map (items : List Json) : orderedItems items = items.map ordered := by
  induction items with
  | nil => rfl
  | cons v rest ih => rw [orderedItems, ih, List.map_cons]

theorem insertField_perm {name : String} (v : Json) {fields : List (String × Json)}
    (new : name ∉ fields.map (·.1)) : (insertField name v fields).Perm ((name, v) :: fields) := by
  induction fields with
  | nil => exact .refl _
  | cons f rest ih =>
    obtain ⟨k, w⟩ := f
    have hrest := ih (List.not_mem_of_not_mem_cons new)
    rw [insertField, if_neg (List.ne_of_not_mem_cons new)]
    split
    · exact .refl _
    · exact (hrest.cons _).trans (.swap _ _ _)

/-- Fields of different names are all kept. -/
theorem orderedFields_perm {fields before : List (String × Json)}
    (distinct : ((fields ++ before).map (·.1)).Nodup) :
    (orderedFields fields before).Perm (fields.map (fun f => (f.1, f.2.ordered)) ++ before) := by
  induction fields generalizing before with
  | nil => exact .refl _
  | cons f rest ih =>
    obtain ⟨k, v⟩ := f
    have hnew : k ∉ (rest ++ before).map (·.1) := (List.nodup_cons.1 distinct).1
    rw [List.map_append, List.mem_append, not_or] at hnew
    have hinsert := insertField_perm v.ordered hnew.2
    have hmoved : ((rest ++ insertField k v.ordered before).map (·.1)).Perm
        (k :: (rest ++ before).map (·.1)) := by
      rw [List.map_append, List.map_append]
      exact ((hinsert.map _).append_left _).trans List.perm_middle
    rw [orderedFields]
    refine (ih (hmoved.nodup_iff.2 distinct)).trans ?_
    exact (hinsert.append_left _).trans List.perm_middle

/-- The fields of an object are those that it was made of. -/
theorem ordered_obj {fields : List (String × Json)} (distinct : (fields.map (·.1)).Nodup) :
    ∃ found, (Json.obj fields).ordered = .obj found ∧
      found.Perm (fields.map fun f => (f.1, f.2.ordered)) := by
  have hperm := @orderedFields_perm fields [] (by rwa [List.append_nil])
  rw [List.append_nil] at hperm
  exact ⟨_, by rw [ordered], hperm⟩

/-- Sorted fields without parts are in order. -/
theorem orderedFields_sorted {fields before : List (String × Json)}
    (sorted : (before ++ fields).Pairwise fun f g => f.1 < g.1)
    (each : ∀ f ∈ fields, f.2.ordered = f.2) : orderedFields fields before = before ++ fields := by
  induction fields generalizing before with
  | nil => exact (List.append_nil _).symm
  | cons f rest ih =>
    obtain ⟨hf, hrest⟩ := List.forall_mem_cons.1 each
    have hlast : ∀ g ∈ before, g.1 < f.1 := fun g hg =>
      (List.pairwise_append.1 sorted).2.2 g hg f List.mem_cons_self
    have hmoved : before ++ f :: rest = (before ++ [f]) ++ rest := by
      rw [List.append_assoc, List.singleton_append]
    rw [hmoved] at sorted ⊢
    rw [orderedFields, hf, insertField_last f.2 hlast, ih sorted hrest]

/-- Nothing becomes of a value but that the fields of its objects come into some order. -/
structure Rearranges (f : Json → Json) : Prop where
  str (s : String) : f (.str s) = .str s
  int (n : Int) : f (.int n) = .int n
  arr (items : List Json) : f (.arr items) = .arr (items.map f)
  obj {fields : List (String × Json)} (distinct : (fields.map (·.1)).Nodup) :
    ∃ found, f (.obj fields) = .obj found ∧ found.Perm (fields.map fun g => (g.1, f g.2))
  sorted {fields : List (String × Json)} (sorted : fields.Pairwise fun g h => g.1 < h.1)
    (each : ∀ g ∈ fields, f g.2 = g.2) : f (.obj fields) = .obj fields

theorem ordered_rearranges : Rearranges ordered where
  str _ := by rw [ordered] <;> exact nofun
  int _ := by rw [ordered] <;> exact nofun
  arr items := by rw [ordered, orderedItems_eq_map]
  obj := ordered_obj
  sorted sorted each := by rw [ordered, @orderedFields_sorted _ [] sorted each, List.nil_append]

theorem id_rearranges : Rearranges id where
  str _ := rfl
  int _ := rfl
  arr items := by rw [List.map_id]; rfl
  obj {fields} _ := ⟨fields, rfl, .of_eq (List.map_id fields).symm⟩
  sorted _ _ := rfl

theorem Rearranges.list {f : Json → Json} (hf : Rearranges f) {α : Type} (write : α → Json)
    (items : List α) : f (.arr (items.map write)) = .arr (items.map fun x => f (write x)) := by
  rw [hf.arr, List.map_map]
  rfl

end Json

namespace Data

open Json (ordered orderedItems orderedFields)

mutual
/-- What is written for a value is read as the value, with its fields in order. -/
theorem toJson?_ordered : ∀ v : Json, (ofJson v).toJson? = some v.ordered
  | .null | .bool _ | .int _ | .float _ | .str _ => rfl
  | .arr items => by
    rw [ofJson, toJson?, toItems?_ordered items, ordered, Option.map_some]
  | .obj fields => by
    rw [ofJson, toJson?, toFields?_ordered fields, ordered, Option.map_some]

theorem toItems?_ordered : ∀ items : List Json, toItems? (ofItems items) = some (orderedItems items)
  | [] => rfl
  | v :: rest => by
    rw [ofItems, toItems?, toJson?_ordered v, toItems?_ordered rest, orderedItems]
    rfl

theorem toFields?_ordered : ∀ fields before : List (String × Json),
    toFields? (ofFields fields) before = some (orderedFields fields before)
  | [], _ => rfl
  | (k, v) :: rest, before => by
    rw [ofFields, toFields?, toJson?_ordered v, Option.bind_eq_bind, Option.bind_some,
      toFields?_ordered rest, orderedFields]
end

/-! ### Records -/

theorem get?_of_mem {fields : Fields} (distinct : (fields.map (·.1)).Nodup) {name : String}
    {v : Data} (h : (name, v) ∈ fields) : fields.get? name = some v := by
  induction fields with
  | nil => cases h
  | cons f rest ih =>
    obtain ⟨k, w⟩ := f
    obtain ⟨hnew, hrest⟩ := List.nodup_cons.1 distinct
    rw [get?_cons]
    rcases List.mem_cons.1 h with heq | hin
    · obtain ⟨rfl, rfl⟩ := Prod.mk.inj heq
      exact if_pos rfl
    · have hne : name ≠ k := by
        rintro rfl
        exact hnew (List.mem_map.2 ⟨_, hin, rfl⟩)
      rw [if_neg hne, ih hrest hin]

structure Fields.Of (names : List String) (fields : List (String × Json)) (found : Fields) : Prop where
  present : ∀ name v, (name, v) ∈ fields → name ∈ names → found.get? name = some (ofJson v)
  absent : ∀ name, name ∉ fields.map (·.1) → found.get? name = none

theorem exists_fieldsOfEntries (names : List String) {fields : List (String × Json)}
    (distinct : (fields.map (·.1)).Nodup) :
    ∃ found, fieldsOfEntries? names (ofFields fields) = some found ∧ found.Of names fields := by
  have hsub : ((fields.filter (·.1 ∈ names)).map (·.1)).Sublist (fields.map (·.1)) :=
    List.filter_sublist.map _
  have hfound : fieldsOfEntries? names (ofFields fields) =
      some ((fields.filter (·.1 ∈ names)).map fun f => (f.1, ofJson f.2)) := by
    clear hsub
    induction fields with
    | nil => rfl
    | cons f rest ih =>
      obtain ⟨k, v⟩ := f
      obtain ⟨hnew, hrest⟩ := List.nodup_cons.1 distinct
      have hnone : Fields.get? ((rest.filter (·.1 ∈ names)).map fun f => (f.1, ofJson f.2)) k =
          none := by
        apply get?_none
        rw [List.map_map]
        exact fun hk => hnew ((List.filter_sublist.map _).subset hk)
      rw [ofFields, fieldsOfEntries?, ih hrest]
      by_cases hk : k ∈ names <;> simp [fieldOf?, isKey, hk, hnone]
  refine ⟨_, hfound, fun name v hmem hname => get?_of_mem ?_ ?_, fun name hname => get?_none ?_⟩
  · rw [List.map_map]
    exact hsub.nodup distinct
  · exact List.mem_map.2 ⟨(name, v), List.mem_filter.2 ⟨hmem, decide_eq_true hname⟩, rfl⟩
  · rw [List.map_map]
    exact fun hin => hname (hsub.subset hin)

namespace Fields.Of

variable {α : Type} {names : List String} {fields : List (String × Json)} {found : Fields}
  {name : String} {v : Json} {read : Data → Option α} {x default : α}

theorem perm {others : List (String × Json)} (h : found.Of names fields)
    (hperm : fields.Perm others) : found.Of names others :=
  ⟨fun name v hmem => h.present name v (hperm.mem_iff.2 hmem),
    fun name hnone => h.absent name fun hin => hnone ((hperm.map _).mem_iff.1 hin)⟩

theorem required (h : found.Of names fields) (hmem : (name, v) ∈ fields) (known : name ∈ names)
    (hread : read (ofJson v) = some x) : found.required name read = some x := by
  rw [Fields.required, h.present name v hmem known]
  exact hread

theorem optional (h : found.Of names fields) (hmem : (name, v) ∈ fields) (known : name ∈ names)
    (hread : read (ofJson v) = some x) : found.optional name default read = some x := by
  rw [Fields.optional, h.present name v hmem known]
  exact hread

theorem omitted (h : found.Of names fields) (hnone : name ∉ fields.map (·.1)) :
    found.optional name default read = some default := by
  rw [Fields.optional, h.absent name hnone]

end Fields.Of

section

variable {f : Json → Json}

/-- An object that has been read is a record with the fields that were written. -/
theorem fields?_rearranged (hf : Json.Rearranges f) (names : List String)
    {fields : List (String × Json)} (distinct : (fields.map (·.1)).Nodup) :
    ∃ found, (ofJson (f (.obj fields))).fields? names = some found ∧
      found.Of names (fields.map fun g => (g.1, f g.2)) := by
  obtain ⟨kept, hkept, hperm⟩ := hf.obj distinct
  have hnames : (kept.map (·.1)).Perm (fields.map (·.1)) := by
    have hmap := hperm.map (·.1)
    rwa [List.map_map] at hmap
  obtain ⟨found, hfound, hof⟩ := exists_fieldsOfEntries names (hnames.nodup_iff.2 distinct)
  rw [hkept]
  exact ⟨found, hfound, hof.perm hperm⟩

theorem rank_lt_rearranged (hf : Json.Rearranges f) {fields : List (String × Json)}
    (distinct : (fields.map (·.1)).Nodup) {name : String} {v : Json} (h : (name, v) ∈ fields) :
    (ofJson (f v)).rank < (ofJson (f (.obj fields))).rank := by
  obtain ⟨kept, hkept, hperm⟩ := hf.obj distinct
  rw [hkept]
  exact rank_lt_field (hperm.mem_iff.2 (List.mem_map.2 ⟨_, h, rfl⟩))

end

theorem filter_ofFields (names : List String) (fields : List (String × Json)) :
    (ofFields fields).filter (fun e => isNamed names e.1) =
      ofFields (fields.filter (·.1 ∈ names)) := by
  rw [ofFields_eq_map, ofFields_eq_map, List.filter_map]
  rfl

theorem filter_not_ofFields (names : List String) (fields : List (String × Json)) :
    (ofFields fields).filter (fun e => !isNamed names e.1) =
      ofFields (fields.filter (·.1 ∉ names)) := by
  rw [ofFields_eq_map, ofFields_eq_map, List.filter_map]
  congr 2
  funext f
  simp [isNamed]

/-- The one entry of a name. -/
theorem onlyEntry?_ofFields {fields : List (String × Json)} (distinct : (fields.map (·.1)).Nodup)
    {name : String} {v : Json} (h : (name, v) ∈ fields) :
    onlyEntry? name (ofFields fields) = some (some (ofJson v)) := by
  have hnone : ∀ {rest : List (String × Json)}, name ∉ rest.map (·.1) →
      onlyEntry? name (ofFields rest) = some none := by
    intro rest hnew
    induction rest with
    | nil => rfl
    | cons f rest ih =>
      have hne : f.1 ≠ name := (List.ne_of_not_mem_cons hnew).symm
      rw [ofFields, onlyEntry?, ih (List.not_mem_of_not_mem_cons hnew), Option.bind_eq_bind,
        Option.bind_some, if_neg hne]
  induction fields with
  | nil => cases h
  | cons f rest ih =>
    obtain ⟨k, w⟩ := f
    obtain ⟨hnew, hrest⟩ := List.nodup_cons.1 distinct
    rw [ofFields, onlyEntry?]
    rcases List.mem_cons.1 h with heq | hin
    · obtain ⟨rfl, rfl⟩ := Prod.mk.inj heq
      rw [hnone hnew]
      simp
    · have hne : k ≠ name := by
        rintro rfl
        exact hnew (List.mem_map.2 ⟨_, hin, rfl⟩)
      rw [ih hrest hin, Option.bind_eq_bind, Option.bind_some, if_neg hne]

end Data
end RecipeNet
