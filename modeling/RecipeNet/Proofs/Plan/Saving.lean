import RecipeNet.CommandLine.Script
import RecipeNet.Proofs.Plan.Sheet

/-!
Plans in files. A plan that has been saved is loaded again if it is sound, and is refused for its
own fault otherwise, given that the text of its sheet keeps what is written in it.
-/

namespace RecipeNet

/-! ### Texts in files -/

namespace CommandLine.Folder

variable {f f' : Folder} {path text : String} {names here there : List String}

theorem mem_put {files : List (List String × String)} {file : List String × String}
    (h : file ∈ files) : ∃ text', (file.1, text') ∈ put files names text := by
  unfold put
  split
  · by_cases hsame : file.1 = names
    · exact ⟨text, List.mem_map.2 ⟨file, h, by rw [if_pos hsame, hsame]⟩⟩
    · exact ⟨file.2, List.mem_map.2 ⟨file, h, if_neg hsame⟩⟩
  · exact ⟨file.2, List.mem_append_left _ h⟩

theorem lookup_put (files : List (List String × String)) :
    (put files names text).lookup names = some text := by
  unfold put
  split
  · rename_i hthere
    induction files with
    | nil => cases hthere
    | cons file rest ih =>
      rw [List.map_cons, List.lookup_cons]
      by_cases hsame : file.1 = names
      · rw [if_pos hsame, beq_self_eq_true]
      · rw [if_neg hsame, beq_eq_false_iff_ne.2 (Ne.symm hsame)]
        refine ih ?_
        rwa [List.any_cons, decide_eq_false hsame, Bool.false_or] at hthere
  · rename_i hnew
    have hnone : files.lookup names = none := by
      rw [List.lookup_eq_none_iff]
      intro file hfile
      rw [bne_iff_ne]
      rintro rfl
      exact hnew (List.any_eq_true.2 ⟨file, hfile, decide_eq_true rfl⟩)
    rw [List.lookup_append, hnone, Option.none_or, List.lookup_cons, beq_self_eq_true]

theorem isDirectory_put (h : f.isDirectory here = true) :
    Folder.isDirectory ⟨put f.files names text⟩ here = true := by
  unfold isDirectory at h ⊢
  rw [Bool.or_eq_true, List.any_eq_true] at h ⊢
  refine h.imp_right fun ⟨file, hfile, hwithin⟩ => ?_
  obtain ⟨text', hput⟩ := mem_put hfile
  exact ⟨_, hput, hwithin⟩

theorem walk_put {rest : List String} (h : f.walk here rest = some there) :
    Folder.walk ⟨put f.files names text⟩ here rest = some there := by
  induction here, rest using walk.induct f with
  | case1 here => exact h
  | case2 here name => exact h
  | case3 here name next rest step hdirectory ih =>
    rw [walk, if_pos hdirectory] at h
    rw [walk, if_pos (isDirectory_put hdirectory)]
    exact ih h
  | case4 here name next rest step hmissing =>
    rw [walk, if_neg hmissing] at h
    cases h

theorem walk_eq_of_making {rest : List String} (h : f.walk here rest = some there)
    (hmaking : f.walkMaking here rest = some names) : names = there := by
  induction here, rest using walk.induct f with
  | case1 here => exact Option.some.inj (hmaking.symm.trans h)
  | case2 here name => exact Option.some.inj (hmaking.symm.trans h)
  | case3 here name next rest step hdirectory ih =>
    rw [walk, if_pos hdirectory] at h
    rw [walkMaking] at hmaking
    split at hmaking
    · cases hmaking
    · exact ih h hmaking
  | case4 here name next rest step hmissing =>
    rw [walk, if_neg hmissing] at h
    cases h

def fetch (f : Folder) (path : String) : Except String String :=
  (f.read? path).elim (.error "no such file") .ok

/-- What is written to a file whose directory is there is read from it. -/
theorem read?_of_write? (reachable : (f.walk [] (namesOf path)).isSome = true)
    (hwrite : f.write? path text = some f') : f'.read? path = some text := by
  obtain ⟨there, hthere⟩ := Option.isSome_iff_exists.1 reachable
  rw [write?] at hwrite
  split at hwrite
  · rename_i hends
    split at hwrite
    · rename_i names hnames
      split at hwrite
      · cases hwrite
      · obtain rfl := Option.some.inj hwrite
        obtain rfl := walk_eq_of_making hthere hnames
        rw [read?, if_pos hends, walk_put hthere, Option.bind_some, file?, lookup_put]
    · cases hwrite
  · cases hwrite

end CommandLine.Folder

namespace Plan

open CommandLine (Folder)

/-- Writes a plan to the file at a path, whose directory must be there. -/
def save (p : Plan) (folder : Folder) (path : String) : Option Folder :=
  if (folder.walk [] (Folder.namesOf path)).isSome then folder.write? path (Sheet.render p)
  else none

def load (folder : Folder) (path : String) : Except Fault Plan :=
  ofFile (folder.fetch path)

/-- The text of a plan's sheet keeps what is written in it: it is read as the plan's node again, and
not too much is open in it for the node to have a value. -/
def Legible (p : Plan) : Prop :=
  ∃ root, Yaml.document? (Sheet.render p) = some (some root) ∧
    root.restores (Sheet.planNode p) = true ∧
    ((Yaml.valueOf Sheet.depthLimit root).run ⟨[], 0⟩).isSome = true

variable {p : Plan} {folder saved : Folder} {path : String}

theorem Legible.parse (h : p.Legible) : Sheet.parse? (Sheet.render p) = some p := by
  obtain ⟨root, hdocument, hrestores, hvalue⟩ := h
  have hholds := Sheet.writes_plan p root hrestores
  have hshallow : (Data.ofJson p.toJson).depth ≤ Sheet.depthLimit := by
    rw [Yaml.valueOf_of_holds hholds, Yaml.shallow?] at hvalue
    by_contra hdeep
    rw [if_neg hdeep] at hvalue
    cases hvalue
  rw [Sheet.parse?, hdocument]
  simp only [Option.bind_eq_bind, Option.bind_some, Sheet.ofNode?,
    Sheet.plan_of_holds hholds hshallow]
  rfl

/-- A plan that has been saved is loaded if it is sound, and otherwise its own fault is. -/
theorem load_of_save (legible : p.Legible) (h : p.save folder path = some saved) :
    load saved path = p.validate.map fun _ => p := by
  unfold save at h
  split at h
  · rename_i reachable
    rw [load, Folder.fetch, Folder.read?_of_write? reachable h, Option.elim_some, ofFile,
      legible.parse]
  · cases h

/-- A plan in which hardly any name is a word. -/
def riddle : Plan where
  id := "null"
  version := 7
  places := [{ id := "~", role := .start }, { id := "out", role := .terminal }]
  steps := [⟨"1", some "true", ["~"], ["out"], .nested
    { id := "007", version := 1
      places := [{ id := "in", role := .start }, { id := "-", role := .terminal, label := "1e3" }]
      steps := [⟨"no", none, ["in"], ["-"], .pass 0⟩] } (.ofList [("1e3", 0)])⟩]

/-- The characters of a text are those that it was made of. -/
theorem tokens?_ofList (cs : List Char) : Yaml.tokens? (.ofList cs) =
    if cs.all Yaml.isAllowed then
      (Yaml.Lexer.run? ((Yaml.place 0 0 0 cs).length + 1) { rest := Yaml.place 0 0 0 cs }).map
        (·.toList)
    else none := by
  rw [Yaml.tokens?, Yaml.glyphs?, String.toList_ofList]
  split
  · rw [Option.bind_eq_bind, Option.bind_some, Option.map_eq_bind]
    rfl
  · rfl

/-- Whether a plan is legible can be seen from its sheet. -/
theorem legible_of_read (h : ((Yaml.document? (Sheet.render p)).join.any fun root =>
    root.restores (Sheet.planNode p) &&
      ((Yaml.valueOf Sheet.depthLimit root).run ⟨[], 0⟩).isSome) = true) : p.Legible := by
  obtain ⟨root, hroot, hkept⟩ := (Option.any_eq_true _ _).1 h
  rw [Bool.and_eq_true] at hkept
  exact ⟨root, Option.join_eq_some_iff.1 hroot, hkept⟩

theorem riddle_legible : riddle.Legible := by
  refine legible_of_read ?_
  unfold Sheet.render Yaml.Printer.render Yaml.document?
  simp only [tokens?_ofList]
  decide +kernel

theorem blank_legible : (Plan.new "").Legible := by
  refine legible_of_read ?_
  unfold Sheet.render Yaml.Printer.render Yaml.document?
  simp only [tokens?_ofList]
  decide +kernel

/-- A riddle is loaded as it was saved. A plan without anything is refused as it was before. -/
theorem riddle_kept : ∃ saved blank, riddle.save ⟨[]⟩ "a.yaml" = some saved ∧
    load saved "a.yaml" = .ok riddle ∧ (Plan.new "").save ⟨[]⟩ "a.yaml" = some blank ∧
    ∃ fault, (Plan.new "").validate = .error fault ∧ load blank "a.yaml" = .error fault := by
  have hroom : ∀ p : Plan, ∃ saved, p.save ⟨[]⟩ "a.yaml" = some saved := fun p => by
    refine ⟨⟨[(["a.yaml"], Sheet.render p)]⟩, ?_⟩
    rfl
  obtain ⟨saved, hsaved⟩ := hroom riddle
  obtain ⟨blank, hblank⟩ := hroom (Plan.new "")
  have hvalid : riddle.validate = .ok () := by decide +kernel
  obtain ⟨fault, hfault⟩ : ∃ fault, (Plan.new "").validate = .error fault := ⟨_, rfl⟩
  refine ⟨saved, blank, hsaved, ?_, hblank, fault, hfault, ?_⟩
  · rw [load_of_save riddle_legible hsaved, hvalid]
    rfl
  · rw [load_of_save blank_legible hblank, hfault]
    rfl

end Plan
end RecipeNet
