import RecipeNet.Proofs.Json.Reading
import RecipeNet.Snapshot.Document

/-!
JSON values as document values. A value whose objects are in order comes back from the document
value that it is, and a record's fields are found in the object that was made of them.
-/

namespace RecipeNet

/-- A value whose objects have their fields in order of name, each name once. -/
inductive Json.Sorted : Json → Prop
  | null : Sorted .null
  | bool (b : Bool) : Sorted (.bool b)
  | int (n : Int) : Sorted (.int n)
  | float (bits : UInt64) : Sorted (.float bits)
  | str (s : String) : Sorted (.str s)
  | arr {items : List Json} (each : ∀ v ∈ items, Sorted v) : Sorted (.arr items)
  | obj {fields : List (String × Json)} (ordered : fields.Pairwise fun f g => f.1 < g.1)
      (each : ∀ f ∈ fields, Sorted f.2) : Sorted (.obj fields)

/-- A value that a token can carry, if it has no doubles in it. -/
structure Json.Plain (v : Json) : Prop where
  exact : v.Exact
  sorted : v.Sorted

/-- A field whose name comes after all others is put last. -/
theorem Json.insertField_last {name : String} (v : Json) {fields : List (String × Json)}
    (h : ∀ f ∈ fields, f.1 < name) : insertField name v fields = fields ++ [(name, v)] := by
  induction fields with
  | nil => rfl
  | cons f rest ih =>
    obtain ⟨hf, hrest⟩ := List.forall_mem_cons.1 h
    have hne : ¬ name = f.1 := fun heq => String.lt_irrefl name (heq ▸ hf)
    rw [insertField, if_neg (String.lt_asymm hf), if_neg hne, ih hrest, List.cons_append]

namespace Data

open Json (Sorted)

theorem ofItems_eq_map (items : List Json) : ofItems items = items.map ofJson := by
  induction items with
  | nil => rfl
  | cons v rest ih => rw [ofItems, ih, List.map_cons]

theorem ofFields_eq_map (fields : List (String × Json)) :
    ofFields fields = fields.map fun f => (.str f.1, ofJson f.2) := by
  induction fields with
  | nil => rfl
  | cons f rest ih => rw [ofFields, ih, List.map_cons]

theorem ofJson_arr (items : List Json) : ofJson (.arr items) = .seq (items.map ofJson) := by
  rw [ofJson, ofItems_eq_map]

theorem ofJson_obj (fields : List (String × Json)) :
    ofJson (.obj fields) = .map (fields.map fun f => (.str f.1, ofJson f.2)) := by
  rw [ofJson, ofFields_eq_map]

/-! ### The way back -/

theorem toItems?_map {items : List Json} (each : ∀ v ∈ items, (ofJson v).toJson? = some v) :
    toItems? (items.map ofJson) = some items := by
  induction items with
  | nil => rfl
  | cons v rest ih =>
    obtain ⟨hv, hrest⟩ := List.forall_mem_cons.1 each
    rw [List.map_cons, toItems?, hv, ih hrest]
    rfl

theorem toFields?_map {fields before : List (String × Json)}
    (ordered : (before ++ fields).Pairwise fun f g => f.1 < g.1)
    (each : ∀ f ∈ fields, (ofJson f.2).toJson? = some f.2) :
    toFields? (fields.map fun f => (.str f.1, ofJson f.2)) before = some (before ++ fields) := by
  induction fields generalizing before with
  | nil => rw [List.append_nil]; rfl
  | cons f rest ih =>
    obtain ⟨hf, hrest⟩ := List.forall_mem_cons.1 each
    have hlast : ∀ g ∈ before, g.1 < f.1 := fun g hg =>
      (List.pairwise_append.1 ordered).2.2 g hg f List.mem_cons_self
    have hmoved : before ++ f :: rest = (before ++ [f]) ++ rest := by
      rw [List.append_assoc, List.singleton_append]
    rw [hmoved] at ordered ⊢
    rw [List.map_cons, toFields?, hf, Option.bind_eq_bind, Option.bind_some,
      Json.insertField_last f.2 hlast, ih ordered hrest]

/-- A sorted value is what its document value stands for. -/
theorem toJson?_ofJson {v : Json} (h : v.Sorted) : (ofJson v).toJson? = some v := by
  induction h with
  | null | bool | int | float | str => rfl
  | arr each ih => rw [ofJson_arr, toJson?, toItems?_map ih]; rfl
  | @obj fields ordered each ih =>
    rw [ofJson_obj, toJson?, @toFields?_map fields [] ordered ih]
    rfl

/-! ### Measures of a document value -/

mutual
/-- Nothing in a JSON value is broken. -/
theorem sound_ofJson : ∀ v : Json, (ofJson v).sound = true
  | .null | .bool _ | .int _ | .float _ | .str _ => rfl
  | .arr items => soundItems_ofItems items
  | .obj fields => soundEntries_ofFields fields

theorem soundItems_ofItems : ∀ items : List Json, soundItems (ofItems items) = true
  | [] => rfl
  | v :: rest => by rw [ofItems, soundItems, sound_ofJson v, soundItems_ofItems rest]; rfl

theorem soundEntries_ofFields : ∀ fields : List (String × Json),
    soundEntries (ofFields fields) = true
  | [] => rfl
  | (k, v) :: rest => by
    rw [ofFields, soundEntries, sound, sound_ofJson v, soundEntries_ofFields rest]
    · rfl
    all_goals simp
end

theorem depthItems_le {items : List Data} {n : Nat} :
    depthItems items ≤ n ↔ ∀ v ∈ items, v.depth ≤ n := by
  induction items with
  | nil => simp [depthItems]
  | cons v rest ih => rw [depthItems, Nat.max_le, ih, List.forall_mem_cons]

theorem depthEntries_le {entries : List (Data × Data)} {n : Nat} :
    depthEntries entries ≤ n ↔ ∀ e ∈ entries, e.1.depth ≤ n ∧ e.2.depth ≤ n := by
  induction entries with
  | nil => simp [depthEntries]
  | cons e rest ih => rw [depthEntries, Nat.max_le, Nat.max_le, ih, List.forall_mem_cons]

theorem depth_list_le {α : Type} {write : α → Json} {items : List α} {n : Nat} :
    (ofJson (.arr (items.map write))).depth ≤ n + 1 ↔ ∀ x ∈ items, (ofJson (write x)).depth ≤ n := by
  rw [ofJson_arr, depth, Nat.add_comm, Nat.add_le_add_iff_right, depthItems_le, List.forall_mem_map,
    List.forall_mem_map]

theorem depth_obj_le {fields : List (String × Json)} {n : Nat} :
    (ofJson (.obj fields)).depth ≤ n + 1 ↔ ∀ f ∈ fields, (ofJson f.2).depth ≤ n := by
  rw [ofJson_obj, depth, Nat.add_comm, Nat.add_le_add_iff_right, depthEntries_le, List.forall_mem_map]
  exact forall₂_congr fun f _ => and_iff_right (Nat.zero_le n)

theorem rank_lt_item {items : List Json} {v : Json} (h : v ∈ items) :
    (ofJson v).rank < (ofJson (.arr items)).rank := by
  have hle : (ofJson v).rank ≤ rankItems (items.map ofJson) := by
    induction items with
    | nil => cases h
    | cons w rest ih =>
      rw [List.map_cons, rankItems]
      rcases List.mem_cons.1 h with rfl | h
      · exact Nat.le_max_left _ _
      · exact Nat.le_trans (ih h) (Nat.le_max_right _ _)
  rw [ofJson_arr, rank]
  omega

theorem rank_lt_field {fields : List (String × Json)} {name : String} {v : Json}
    (h : (name, v) ∈ fields) : (ofJson v).rank < (ofJson (.obj fields)).rank := by
  have hle : (ofJson v).rank ≤ rankEntries (fields.map fun f => (.str f.1, ofJson f.2)) := by
    induction fields with
    | nil => cases h
    | cons g rest ih =>
      rw [List.map_cons, rankEntries]
      rcases List.mem_cons.1 h with rfl | h
      · exact Nat.le_max_left _ _
      · exact Nat.le_trans (ih h) (Nat.le_max_right _ _)
  rw [ofJson_obj, rank]
  omega

/-! ### Records -/

theorem str?_ofJson (s : String) : str? (ofJson (.str s)) = some s := rfl

theorem get?_cons (k name : String) (v : Data) (rest : Fields) :
    Fields.get? ((k, v) :: rest) name = if name = k then some v else rest.get? name := by
  rw [Fields.get?, List.lookup_cons]
  split
  · next heq => rw [if_pos (beq_iff_eq.1 heq)]
  · next heq =>
    rw [if_neg (beq_eq_false_iff_ne.1 heq)]
    rfl

theorem get?_nil (name : String) : Fields.get? [] name = none := rfl

theorem get?_none {fields : List (String × Data)} {name : String}
    (h : name ∉ fields.map (·.1)) : Fields.get? fields name = none := by
  rw [Fields.get?, List.lookup_eq_none_iff]
  intro f hf
  rw [bne_iff_ne]
  rintro rfl
  exact h (List.mem_map_of_mem hf)

/-- The fields of a record are those that its object was made of. -/
theorem fields?_ofJson {names : List String} {fields : List (String × Json)}
    (known : ∀ name ∈ fields.map (·.1), name ∈ names) (distinct : (fields.map (·.1)).Nodup) :
    (ofJson (.obj fields)).fields? names = some (fields.map fun f => (f.1, ofJson f.2)) := by
  rw [ofJson_obj, fields?]
  induction fields with
  | nil => rfl
  | cons f rest ih =>
    obtain ⟨hknown, hrest⟩ := List.forall_mem_cons.1 known
    obtain ⟨hnew, hdistinct⟩ := List.nodup_cons.1 distinct
    have hnone : Fields.get? (rest.map fun f => (f.1, ofJson f.2)) f.1 = none := by
      apply get?_none
      rw [List.map_map]
      exact hnew
    rw [List.map_cons, fieldsOfEntries?, ih hrest hdistinct]
    simp [fieldOf?, isKey, hknown, hnone]

/-- Items that are each read to what they were made of, or refused. -/
theorem list?_map {α β : Type} {read : Data → Option β} {write : α → Json} {found : α → β}
    {fits : α → Prop} [DecidablePred fits] {items : List α}
    (each : ∀ x ∈ items, read (ofJson (write x)) = if fits x then some (found x) else none) :
    list? read (ofJson (.arr (items.map write))) =
      if ∀ x ∈ items, fits x then some (items.map found) else none := by
  rw [ofJson_arr, list?]
  induction items with
  | nil => rfl
  | cons x rest ih =>
    obtain ⟨hx, hrest⟩ := List.forall_mem_cons.1 each
    rw [List.map_cons, List.map_cons, List.mapM_cons, hx, ih hrest]
    by_cases hfits : fits x
    · by_cases hall : ∀ y ∈ rest, fits y
      · rw [if_pos hfits, if_pos hall, if_pos (List.forall_mem_cons.2 ⟨hfits, hall⟩)]
        rfl
      · rw [if_pos hfits, if_neg hall, if_neg fun h => hall (List.forall_mem_cons.1 h).2]
        rfl
    · rw [if_neg hfits, if_neg fun h => hfits (List.forall_mem_cons.1 h).1]
      rfl

/-- Items that are all read to what they were made of. -/
theorem list?_of_each {α : Type} {read : Data → Option α} {write : α → Json} {items : List α}
    (each : ∀ x ∈ items, read (ofJson (write x)) = some x) :
    list? read (ofJson (.arr (items.map write))) = some items := by
  have hall : ∀ x ∈ items, read (ofJson (write x)) = if True then some (id x) else none := each
  rw [list?_map hall, if_pos fun _ _ => trivial, List.map_id]

end Data
end RecipeNet
