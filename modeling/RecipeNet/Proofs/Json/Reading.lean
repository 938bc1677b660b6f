import RecipeNet.Proofs.Json.Scalars

/-!
Values in JSON, on one line or over several: what is written for a value without doubles is read as
that value again, wherever there are blanks.
-/

namespace RecipeNet.Json

open Text

/-- A value whose numbers are integers of 64 bits. -/
inductive Exact : Json → Prop
  | null : Exact .null
  | bool (b : Bool) : Exact (.bool b)
  | int {n : Int} (low : -2 ^ 63 ≤ n) (high : n < 2 ^ 64) : Exact (.int n)
  | str (s : String) : Exact (.str s)
  | arr {items : List Json} (each : ∀ v ∈ items, Exact v) : Exact (.arr items)
  | obj {fields : List (String × Json)} (each : ∀ f ∈ fields, Exact f.2) : Exact (.obj fields)

theorem Exact.list {α : Type} {write : α → Json} {items : List α}
    (each : ∀ x ∈ items, (write x).Exact) : (Json.arr (items.map write)).Exact :=
  .arr (List.forall_mem_map.2 each)

theorem Exact.cons {name : String} {v : Json} {fields : List (String × Json)} (hv : v.Exact)
    (hfields : (Json.obj fields).Exact) : (Json.obj ((name, v) :: fields)).Exact := by
  cases hfields with
  | obj each => exact .obj (List.forall_mem_cons.2 ⟨hv, each⟩)

theorem Exact.nil : (Json.obj []).Exact :=
  .obj nofun

/-! ### Blanks -/

theorem skipSpace_cons {c : Char} (h : isSpace c = false) (cs : List Char) :
    skipSpace (c :: cs) = c :: cs :=
  List.dropWhile_cons_of_neg (by simp [h])

theorem isSpace_of_newline {level : Nat} {c : Char} (h : c ∈ newline level) : isSpace c = true := by
  rcases List.mem_cons.1 h with rfl | h
  · rfl
  · obtain rfl := List.eq_of_mem_replicate h
    rfl

theorem skipSpace_skipSpace (cs : List Char) : skipSpace (skipSpace cs) = skipSpace cs := by
  induction cs with
  | nil => rfl
  | cons c more ih =>
    cases hc : isSpace c with
    | true =>
      have hskip : skipSpace (c :: more) = skipSpace more := List.dropWhile_cons_of_pos hc
      rw [hskip, ih]
    | false => rw [skipSpace_cons hc, skipSpace_cons hc]

/-- Blanks before a value do not count. -/
theorem readValue_skip {cs cs' : List Char} (h : skipSpace cs = skipSpace cs') (fuel : Nat) :
    readValue fuel cs = readValue fuel cs' := by
  cases fuel with
  | zero => rfl
  | succ fuel => rw [readValue, readValue, h]

theorem readItems_skip {cs cs' : List Char} (h : skipSpace cs = skipSpace cs') (fuel : Nat) :
    readItems fuel cs = readItems fuel cs' := by
  cases fuel with
  | zero => rfl
  | succ fuel => rw [readItems, readItems, readValue_skip h]

theorem readMembers_skip {cs cs' : List Char} (h : skipSpace cs = skipSpace cs') (fuel : Nat) :
    readMembers fuel cs = readMembers fuel cs' := by
  cases fuel with
  | zero => rfl
  | succ fuel => rw [readMembers, readMembers, h]

/-! ### Layouts -/

/-- Where a text has blanks: before the parts of a level, and before the value of a field. -/
structure Layout where
  gap : Nat → List Char
  colon : List Char
  gap_blank : ∀ level, ∀ c ∈ gap level, isSpace c = true
  colon_blank : ∀ c ∈ colon, isSpace c = true

namespace Layout

def lines : Layout := ⟨newline, [' '], fun _ _ => isSpace_of_newline, by simp [isSpace]⟩

def line : Layout := ⟨fun _ => [], [], nofun, nofun⟩

variable (l : Layout)

mutual
def chars (level : Nat) : Json → List Char
  | .arr [] => ['[', ']']
  | .arr (v :: rest) => '[' :: (items (level + 1) (v :: rest) ++ l.gap level ++ [']'])
  | .obj [] => ['\x7b', '\x7d']
  | .obj (f :: rest) => '\x7b' :: (fields (level + 1) (f :: rest) ++ l.gap level ++ ['\x7d'])
  | v => scalarChars v

def items (level : Nat) : List Json → List Char
  | [] => []
  | [v] => l.gap level ++ chars level v
  | v :: w :: rest => l.gap level ++ chars level v ++ ',' :: items level (w :: rest)

def fields (level : Nat) : List (String × Json) → List Char
  | [] => []
  | [(k, v)] => l.gap level ++ quote k ++ ':' :: (l.colon ++ chars level v)
  | (k, v) :: f :: rest =>
    l.gap level ++ quote k ++ ':' :: (l.colon ++ (chars level v ++ ',' :: fields level (f :: rest)))
end

mutual
theorem chars_lines (level : Nat) : ∀ v : Json, lines.chars level v = prettyChars level v
  | .arr [] | .obj [] | .null | .bool _ | .int _ | .float _ | .str _ => rfl
  | .arr (v :: rest) => by rw [chars, prettyChars, items_lines]; rfl
  | .obj (f :: rest) => by rw [chars, prettyChars, fields_lines]; rfl

theorem items_lines (level : Nat) : ∀ vs : List Json, lines.items level vs = prettyItems level vs
  | [] => rfl
  | [v] => by rw [items, prettyItems, chars_lines]; rfl
  | v :: w :: rest => by rw [items, prettyItems, chars_lines, items_lines]; rfl

theorem fields_lines (level : Nat) :
    ∀ fs : List (String × Json), lines.fields level fs = prettyFields level fs
  | [] => rfl
  | [(k, v)] => by rw [fields, prettyFields, chars_lines]; rfl
  | (k, v) :: f :: rest => by rw [fields, prettyFields, chars_lines, fields_lines]; rfl
end

mutual
theorem chars_line (level : Nat) : ∀ v : Json, line.chars level v = compactChars v
  | .arr [] | .obj [] | .null | .bool _ | .int _ | .float _ | .str _ => rfl
  | .arr (v :: rest) => by
    rw [chars, compactChars, items_line, line, List.append_nil]
  | .obj (f :: rest) => by
    rw [chars, compactChars, fields_line, line, List.append_nil]

theorem items_line (level : Nat) : ∀ vs : List Json, line.items level vs = compactItems vs
  | [] => rfl
  | [v] => chars_line level v
  | v :: w :: rest => by
    rw [items, compactItems, chars_line, items_line, line, List.nil_append]

theorem fields_line (level : Nat) :
    ∀ fs : List (String × Json), line.fields level fs = compactFields fs
  | [] => rfl
  | [(k, v)] => by
    rw [fields, compactFields, chars_line, line, List.nil_append, List.nil_append]
  | (k, v) :: f :: rest => by
    rw [fields, compactFields, chars_line, fields_line, line, List.nil_append, List.nil_append]
end

theorem skip_gap (level : Nat) (cs : List Char) : skipSpace (l.gap level ++ cs) = skipSpace cs :=
  List.dropWhile_append_of_pos (l.gap_blank level)

theorem skip_colon (cs : List Char) : skipSpace (l.colon ++ cs) = skipSpace cs :=
  List.dropWhile_append_of_pos l.colon_blank

end Layout

/-! ### Values by their first character -/

theorem readValue_text (fuel : Nat) (cs : List Char) : readValue (fuel + 1) ('"' :: cs) =
    (readText cs).map fun x => ((x.1.map Data.str).getD .broken, x.2) := rfl

theorem readValue_array {cs : List Char} (h : (skipSpace cs).head? ≠ some ']') (fuel : Nat) :
    readValue (fuel + 1) ('[' :: cs) = (readItems fuel cs).map fun x => (.seq x.1, x.2) := by
  rw [readValue, skipSpace_cons rfl]
  split
  case h_2 rest heq =>
    obtain rfl : cs = rest := (List.cons.inj heq).2
    split
    · next heq => exact (h (congrArg List.head? heq)).elim
    · rw [readItems_skip (skipSpace_skipSpace cs)]
  case h_7 _ hno _ _ _ _ => exact (hno cs rfl).elim
  all_goals
    next heq => exact absurd (List.cons.inj heq).1 (by decide)

theorem readValue_object {cs : List Char} (h : (skipSpace cs).head? ≠ some '\x7d') (fuel : Nat) :
    readValue (fuel + 1) ('\x7b' :: cs) = (readMembers fuel cs).map fun x => (mapOf x.1, x.2) := by
  rw [readValue, skipSpace_cons rfl]
  split
  case h_3 rest heq =>
    obtain rfl : cs = rest := (List.cons.inj heq).2
    split
    · next heq => exact (h (congrArg List.head? heq)).elim
    · rw [readMembers_skip (skipSpace_skipSpace cs)]
  case h_7 _ _ hno _ _ _ => exact (hno cs rfl).elim
  all_goals
    next heq => exact absurd (List.cons.inj heq).1 (by decide)

theorem readValue_number {c : Char} (h : c = '-' ∨ isDigit c = true) (fuel : Nat) (cs : List Char) :
    readValue (fuel + 1) (c :: cs) = readNumber (c :: cs) := by
  have hother : ∀ d, isDigit d = false → d ≠ '-' → c ≠ d := by
    rintro d hdigit hminus rfl
    rcases h with rfl | h
    · exact hminus rfl
    · exact Bool.false_ne_true (hdigit.symm.trans h)
  have hspace : isSpace c = false := by
    simp only [isSpace, Bool.or_eq_false_iff, decide_eq_false_iff_not]
    exact ⟨⟨⟨hother _ rfl (by decide), hother _ rfl (by decide)⟩, hother _ rfl (by decide)⟩,
      hother _ rfl (by decide)⟩
  rw [readValue, skipSpace_cons hspace]
  split
  case h_7 => rfl
  all_goals
    next heq => exact (hother _ rfl (by decide) (List.cons.inj heq).1).elim

/-! ### Values -/

/-- What stands after a value: nothing, a comma, a closing bracket or a blank. -/
def Closed (rest : List Char) : Prop :=
  ∀ c ∈ rest.head?, c ∈ [',', ']', '\x7d'] ∨ isSpace c = true

theorem closed_cons {c : Char} (h : c ∈ [',', ']', '\x7d'] ∨ isSpace c = true) (cs : List Char) :
    Closed (c :: cs) := by
  rintro d hd
  cases hd
  exact h

theorem Closed.complete {rest : List Char} (h : Closed rest) : Number.Complete rest := by
  cases rest with
  | nil => exact ⟨nofun, nofun, nofun, nofun⟩
  | cons c more =>
    have hc : c = ',' ∨ c = ']' ∨ c = '\x7d' ∨ c = ' ' ∨ c = '\n' ∨ c = '\t' ∨ c = '\r' := by
      simpa [isSpace, or_assoc] using h c rfl
    rcases hc with rfl | rfl | rfl | rfl | rfl | rfl | rfl <;>
      exact ⟨fun _ hc => by cases hc; rfl, nofun, nofun, nofun⟩

theorem Layout.closed_gap (l : Layout) (level : Nat) {cs : List Char} (h : Closed cs) :
    Closed (l.gap level ++ cs) := by
  have hblank := l.gap_blank level
  generalize l.gap level = gap at hblank
  cases gap with
  | nil => exact h
  | cons c more => exact closed_cons (.inr (hblank c List.mem_cons_self)) _

section

variable {l : Layout}

/-- A value whose text is read as the value. -/
def Legible (l : Layout) (v : Json) : Prop :=
  ∀ {level fuel : Nat} {rest : List Char}, Closed rest → (l.chars level v).length ≤ fuel →
    readValue fuel (l.chars level v ++ rest) = some (Data.ofJson v, rest)

theorem legible_int {n : Int} (low : -2 ^ 63 ≤ n) (high : n < 2 ^ 64) : Legible l (.int n) := by
  intro level fuel rest hrest hfuel
  have hread := Number.read_renderInt low high hrest.complete
  change readValue fuel (Number.renderInt n ++ rest) = _
  change (Number.renderInt n).length ≤ fuel at hfuel
  obtain ⟨c, more, hfront, hc⟩ : ∃ c more, Number.renderInt n = c :: more ∧
      (c = '-' ∨ isDigit c = true) := by
    unfold Number.renderInt
    split
    · exact ⟨_, _, rfl, .inl rfl⟩
    · obtain ⟨c, more, hfront⟩ := List.exists_cons_of_ne_nil (decimal_ne_nil n.toNat)
      exact ⟨c, more, hfront, .inr (isDigit_of_mem_decimal (hfront ▸ List.mem_cons_self))⟩
  rw [hfront] at hread hfuel ⊢
  cases fuel with
  | zero => cases hfuel
  | succ fuel =>
    rw [List.cons_append] at hread ⊢
    rw [readValue_number hc, readNumber, hread]
    rfl

theorem legible_str (s : String) : Legible l (.str s) := by
  intro level fuel rest _ hfuel
  change readValue fuel (quote s ++ rest) = _
  cases fuel with
  | zero => cases hfuel
  | succ fuel =>
    rw [quote, List.cons_append, List.append_assoc, List.singleton_append, readValue_text,
      readText_quote]
    rfl

/-- A value starts with neither a blank nor a closing bracket. -/
theorem exists_front (l : Layout) (level : Nat) {v : Json} (h : v.Exact) :
    ∃ c more, l.chars level v = c :: more ∧ isSpace c = false ∧ c ≠ ']' := by
  cases h with
  | null => exact ⟨_, _, rfl, rfl, by decide⟩
  | bool b => cases b <;> exact ⟨_, _, rfl, rfl, by decide⟩
  | str s => exact ⟨_, _, rfl, rfl, by decide⟩
  | @arr items => cases items <;> exact ⟨_, _, rfl, rfl, by decide⟩
  | @obj fields => cases fields <;> exact ⟨_, _, rfl, rfl, by decide⟩
  | @int n low high =>
    change ∃ c more, Number.renderInt n = c :: more ∧ _
    unfold Number.renderInt
    split
    · exact ⟨_, _, rfl, rfl, by decide⟩
    · obtain ⟨c, more, hfront⟩ := List.exists_cons_of_ne_nil (decimal_ne_nil n.toNat)
      have hdigit := isDigit_of_mem_decimal (hfront ▸ List.mem_cons_self : c ∈ decimal n.toNat)
      refine ⟨c, more, hfront, ?_, ?_⟩
      · cases hspace : isSpace c with
        | false => rfl
        | true =>
          simp only [isSpace, Bool.or_eq_true, decide_eq_true_eq] at hspace
          rcases hspace with ((rfl | rfl) | rfl) | rfl <;> cases hdigit
      · rintro rfl
        cases hdigit

/-- An item and what follows it. -/
theorem readItems_last {fuel : Nat} {cs rest : List Char} {v : Data} {outer : Nat}
    (h : readValue fuel cs = some (v, l.gap outer ++ ']' :: rest)) :
    readItems (fuel + 1) cs = some ([v], rest) := by
  rw [readItems, h]
  simp only [Option.bind_eq_bind, Option.bind_some, l.skip_gap]
  rfl

theorem readItems_comma {fuel : Nat} {cs rest last : List Char} {v : Data} {items : List Data}
    (h : readValue fuel cs = some (v, ',' :: rest)) (later : readItems fuel rest = some (items, last)) :
    readItems (fuel + 1) cs = some (v :: items, last) := by
  rw [readItems, h]
  simp only [Option.bind_eq_bind, Option.bind_some, skipSpace_cons (c := ',') rfl, later]

/-- The items of an array are read up to its closing bracket. -/
theorem readItems_chars {items : List Json} (some_items : items ≠ [])
    (each : ∀ v ∈ items, Legible l v) {level outer fuel : Nat} {rest : List Char}
    (hfuel : (l.items level items).length < fuel) :
    readItems fuel (l.items level items ++ (l.gap outer ++ ']' :: rest)) =
      some (Data.ofItems items, rest) := by
  induction items generalizing fuel with
  | nil => exact absurd rfl some_items
  | cons v more ih =>
    obtain ⟨hv, hmore⟩ := List.forall_mem_cons.1 each
    cases fuel with
    | zero => cases hfuel
    | succ fuel =>
      cases more with
      | nil =>
        have hlength : (l.chars level v).length ≤ fuel := by
          rw [Layout.items, List.length_append] at hfuel
          omega
        rw [Layout.items, List.append_assoc, readItems_skip (l.skip_gap level _)]
        exact readItems_last (hv (l.closed_gap outer (closed_cons (by simp) _)) hlength)
      | cons w later =>
        have hparts : (l.chars level v).length ≤ fuel ∧
            (l.items level (w :: later)).length < fuel := by
          simp only [Layout.items, List.length_append, List.length_cons] at hfuel ⊢
          omega
        rw [Layout.items, List.append_assoc, List.append_assoc,
          readItems_skip (l.skip_gap level _)]
        exact readItems_comma (hv (closed_cons (by simp) _) hparts.1)
          (ih (List.cons_ne_nil w later) hmore hparts.2)

/-- A member and what follows it. -/
theorem readMembers_last {fuel : Nat} {k : String} {cs rest : List Char} {v : Data} {outer : Nat}
    (h : readValue fuel cs = some (v, l.gap outer ++ '\x7d' :: rest)) :
    readMembers (fuel + 1) (quote k ++ ':' :: cs) = some ([(some k, v)], rest) := by
  rw [readMembers, quote, List.cons_append, List.append_assoc, List.singleton_append,
    skipSpace_cons rfl]
  simp only [readText_quote, Option.bind_eq_bind, Option.bind_some, skipSpace_cons (c := ':') rfl, h,
    l.skip_gap]
  rfl

theorem readMembers_comma {fuel : Nat} {k : String} {cs rest last : List Char} {v : Data}
    {members : List (Option String × Data)} (h : readValue fuel cs = some (v, ',' :: rest))
    (later : readMembers fuel rest = some (members, last)) :
    readMembers (fuel + 1) (quote k ++ ':' :: cs) = some ((some k, v) :: members, last) := by
  rw [readMembers, quote, List.cons_append, List.append_assoc, List.singleton_append,
    skipSpace_cons rfl]
  simp only [readText_quote, Option.bind_eq_bind, Option.bind_some, skipSpace_cons (c := ':') rfl, h,
    skipSpace_cons (c := ',') rfl, later]

/-- The members of an object are read up to its closing brace. -/
theorem readMembers_chars {fields : List (String × Json)} (some_fields : fields ≠ [])
    (each : ∀ f ∈ fields, Legible l f.2) {level outer fuel : Nat} {rest : List Char}
    (hfuel : (l.fields level fields).length < fuel) :
    readMembers fuel (l.fields level fields ++ (l.gap outer ++ '\x7d' :: rest)) =
      some (fields.map fun f => (some f.1, Data.ofJson f.2), rest) := by
  induction fields generalizing fuel with
  | nil => exact absurd rfl some_fields
  | cons f more ih =>
    obtain ⟨k, v⟩ := f
    obtain ⟨hv, hmore⟩ := List.forall_mem_cons.1 each
    cases fuel with
    | zero => cases hfuel
    | succ fuel =>
      cases more with
      | nil =>
        have hlength : (l.chars level v).length ≤ fuel := by
          simp only [Layout.fields, List.length_append, List.length_cons] at hfuel
          omega
        rw [Layout.fields, List.append_assoc, List.append_assoc,
          readMembers_skip (l.skip_gap level _), List.cons_append, List.append_assoc]
        apply readMembers_last
        rw [readValue_skip (l.skip_colon _), hv (l.closed_gap outer (closed_cons (by simp) _)) hlength]
      | cons g later =>
        have hparts : (l.chars level v).length ≤ fuel ∧
            (l.fields level (g :: later)).length < fuel := by
          simp only [Layout.fields, List.length_append, List.length_cons] at hfuel
          omega
        rw [Layout.fields, List.append_assoc, List.append_assoc,
          readMembers_skip (l.skip_gap level _), List.cons_append, List.append_assoc,
          List.append_assoc, List.cons_append]
        refine readMembers_comma ?_ (ih (List.cons_ne_nil g later) hmore hparts.2)
        rw [readValue_skip (l.skip_colon _), hv (closed_cons (by simp) _) hparts.1]

theorem mapOf_fields (fields : List (String × Json)) :
    mapOf (fields.map fun f => (some f.1, Data.ofJson f.2)) = .map (Data.ofFields fields) := by
  have hentries : ∀ entry : Option String × Data → Option (Data × Data),
      (∀ k v, entry (some k, v) = some (.str k, v)) →
      (fields.map fun f => (some f.1, Data.ofJson f.2)).mapM entry = some (Data.ofFields fields) := by
    intro entry hentry
    induction fields with
    | nil => rfl
    | cons f rest ih =>
      rw [List.map_cons, List.mapM_cons, ih, hentry]
      rfl
  rw [mapOf, hentries _ fun _ _ => rfl]

/-- The text of a value is read as the value. -/
theorem Exact.legible {v : Json} (h : v.Exact) : Legible l v := by
  induction h with
  | null =>
    intro level fuel rest _ hfuel
    cases fuel with
    | zero => cases hfuel
    | succ fuel => rfl
  | bool b =>
    intro level fuel rest _ hfuel
    cases fuel with
    | zero => cases b <;> cases hfuel
    | succ fuel => cases b <;> rfl
  | int low high => exact legible_int low high
  | str s => exact legible_str s
  | @arr items each ih =>
    intro level fuel rest _ hfuel
    cases fuel with
    | zero => cases items <;> cases hfuel
    | succ fuel =>
      cases items with
      | nil => rfl
      | cons v more =>
        have hlength : (l.items (level + 1) (v :: more)).length < fuel := by
          simp only [Layout.chars, List.length_append, List.length_cons] at hfuel
          omega
        -- The first character of an item does not end the list.
        have hfront : (skipSpace (l.items (level + 1) (v :: more) ++
            (l.gap level ++ ']' :: rest))).head? ≠ some ']' := by
          obtain ⟨c, cs, hchars, hspace, hc⟩ := exists_front l (level + 1) (each v List.mem_cons_self)
          cases more <;>
            simp [Layout.items, l.skip_gap, hchars, skipSpace_cons hspace, hc]
        rw [Layout.chars, List.cons_append, List.append_assoc, List.append_assoc,
          List.singleton_append, readValue_array hfront,
          readItems_chars (List.cons_ne_nil v more) (fun w hw => ih w hw) hlength]
        rfl
  | @obj fields each ih =>
    intro level fuel rest _ hfuel
    cases fuel with
    | zero => cases fields <;> cases hfuel
    | succ fuel =>
      cases fields with
      | nil => rfl
      | cons f more =>
        have hlength : (l.fields (level + 1) (f :: more)).length < fuel := by
          simp only [Layout.chars, List.length_append, List.length_cons] at hfuel
          omega
        have hfront : (skipSpace (l.fields (level + 1) (f :: more) ++
            (l.gap level ++ '\x7d' :: rest))).head? ≠ some '\x7d' := by
          cases more <;>
            simp [Layout.fields, l.skip_gap, quote, skipSpace_cons (c := '"') rfl]
        rw [Layout.chars, List.cons_append, List.append_assoc, List.append_assoc,
          List.singleton_append, readValue_object hfront,
          readMembers_chars (List.cons_ne_nil f more) (fun g hg => ih g hg) hlength,
          Option.map_some, mapOf_fields]
        rfl

end

/-- A value that is written is read again. -/
theorem read?_chars (l : Layout) {v : Json} (h : v.Exact) :
    read? (String.ofList (l.chars 0 v)) = some (Data.ofJson v) := by
  have hread : readValue (2 * (l.chars 0 v).length + 2) (l.chars 0 v ++ []) = _ :=
    h.legible nofun (by omega)
  rw [List.append_nil] at hread
  rw [read?, String.toList_ofList]
  simp only [hread]
  rfl

theorem read?_pretty {v : Json} (h : v.Exact) : read? v.pretty = some (Data.ofJson v) := by
  rw [pretty, ← Layout.chars_lines, read?_chars _ h]

theorem read?_compact {v : Json} (h : v.Exact) : read? v.compact = some (Data.ofJson v) := by
  rw [compact, ← Layout.chars_line 0, read?_chars _ h]

end RecipeNet.Json
