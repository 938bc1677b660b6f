/-!
Which output of a step each result of a nested plan goes to, as a finite map
from names to output positions in order of name.
-/

namespace RecipeNet

structure ResultMap where
  entries : List (String × UInt64)
  sorted : entries.Pairwise (·.1 < ·.1)
deriving DecidableEq

namespace ResultMap

def empty : ResultMap := ⟨[], .nil⟩

instance : Inhabited ResultMap := ⟨empty⟩

/-- Sorted entries with one more, which replaces an entry of its name. -/
def insertEntry (name : String) (output : UInt64) : List (String × UInt64) → List (String × UInt64)
  | [] => [(name, output)]
  | (k, n) :: rest =>
    if name < k then (name, output) :: (k, n) :: rest
    else if name = k then (name, output) :: rest
    else (k, n) :: insertEntry name output rest

theorem mem_insertEntry {name : String} {output : UInt64} {e : String × UInt64}
    {es : List (String × UInt64)} (h : e ∈ insertEntry name output es) :
    e = (name, output) ∨ e ∈ es := by
  induction es with
  | nil => simpa [insertEntry] using h
  | cons head rest ih =>
    obtain ⟨k, n⟩ := head
    rw [insertEntry] at h
    split at h
    · simpa using h
    · split at h
      · rcases List.mem_cons.1 h with h | h
        · exact .inl h
        · exact .inr (List.mem_cons_of_mem _ h)
      · rcases List.mem_cons.1 h with h | h
        · exact .inr (h ▸ List.mem_cons_self)
        · exact (ih h).imp_right (List.mem_cons_of_mem _)

theorem sorted_insertEntry (name : String) (output : UInt64) {es : List (String × UInt64)}
    (h : es.Pairwise (·.1 < ·.1)) : (insertEntry name output es).Pairwise (·.1 < ·.1) := by
  induction es with
  | nil => simp [insertEntry]
  | cons head rest ih =>
    obtain ⟨k, n⟩ := head
    obtain ⟨below, tail⟩ := List.pairwise_cons.1 h
    rw [insertEntry]
    split
    · rename_i lt
      refine List.pairwise_cons.2 ⟨fun e he => ?_, h⟩
      rcases List.mem_cons.1 he with rfl | he
      · exact lt
      · exact String.lt_trans lt (below e he)
    · split
      · rename_i eq
        subst eq
        exact List.pairwise_cons.2 ⟨below, tail⟩
      · rename_i notLt ne
        refine List.pairwise_cons.2 ⟨fun e he => ?_, ih tail⟩
        rcases mem_insertEntry he with rfl | he
        · have le : k ≤ name := String.not_lt.1 notLt
          exact Decidable.byContradiction fun no =>
            ne (String.le_antisymm le (String.not_lt.1 no)).symm
        · exact below e he

def insert (m : ResultMap) (name : String) (output : UInt64) : ResultMap :=
  ⟨insertEntry name output m.entries, sorted_insertEntry name output m.sorted⟩

/-- The map of a list of entries, of which the last of a name counts. -/
def ofList (es : List (String × UInt64)) : ResultMap :=
  es.foldl (fun m e => m.insert e.1 e.2) empty

def get? (m : ResultMap) (name : String) : Option UInt64 :=
  m.entries.lookup name

def isEmpty (m : ResultMap) : Bool :=
  m.entries.isEmpty

end ResultMap
end RecipeNet
