import Mathlib.Data.List.TakeWhile
import RecipeNet.Proofs.Net.Leading
import RecipeNet.Proofs.Plan.Document

/-!
The texts of addresses. The text of an address is read as the address itself exactly if its parts
are plain: none of them is empty, has a slash in it, or blanks at its ends. So the addresses of a
plan have texts of their own if the ids of its steps are plain, at every depth.
-/

namespace RecipeNet

namespace Text

variable {mark : Char} {cs rest : List Char}

theorem splitAt_of_not_mem (h : mark ∉ cs) : splitAt mark cs = [cs] := by
  induction cs with
  | nil => rfl
  | cons c cs ih =>
    rw [List.mem_cons, not_or] at h
    rw [splitAt, if_neg (Ne.symm h.1), ih h.2]

theorem splitAt_append (h : mark ∉ cs) :
    splitAt mark (cs ++ mark :: rest) = cs :: splitAt mark rest := by
  induction cs with
  | nil => rw [List.nil_append, splitAt, if_pos rfl]
  | cons c cs ih =>
    rw [List.mem_cons, not_or] at h
    rw [List.cons_append, splitAt, if_neg (Ne.symm h.1), ih h.2]

theorem not_mem_of_mem_splitAt {piece : List Char} (h : piece ∈ splitAt mark cs) : mark ∉ piece := by
  induction cs generalizing piece with
  | nil =>
    rw [splitAt, List.mem_singleton] at h
    rw [h]
    exact List.not_mem_nil
  | cons c cs ih =>
    rw [splitAt] at h
    split at h
    · rcases List.mem_cons.1 h with rfl | hmem
      · exact List.not_mem_nil
      · exact ih hmem
    · rename_i hother
      split at h
      · rw [List.mem_singleton.1 h]
        exact fun hmark => hother (List.mem_singleton.1 hmark).symm
      · rename_i first pieces hsplit
        rw [hsplit] at ih
        rcases List.mem_cons.1 h with rfl | hmem
        · refine fun hmark => (List.mem_cons.1 hmark).elim (fun hsame => hother hsame.symm) ?_
          exact ih List.mem_cons_self
        · exact ih (List.mem_cons_of_mem _ hmem)

theorem dropBlankTail_idem (cs : List Char) : dropBlankTail (dropBlankTail cs) = dropBlankTail cs := by
  induction cs using List.reverseRecOn with
  | nil => rfl
  | append_singleton cs c ih =>
    cases hblank : isBlank c with
    | true => rw [dropBlankTail_append_blank cs hblank, ih]
    | false => rw [dropBlankTail_append_nonblank cs hblank, dropBlankTail_append_nonblank cs hblank]

theorem dropBlankTail_sublist (cs : List Char) : (dropBlankTail cs).Sublist cs := by
  induction cs with
  | nil => exact .slnil
  | cons c cs ih =>
    rw [dropBlankTail]
    split
    · split
      · exact List.nil_sublist _
      · exact (List.nil_sublist cs).cons_cons c
    · exact ih.cons_cons c

theorem trimChars_sublist (cs : List Char) : (trimChars cs).Sublist cs :=
  (dropBlankTail_sublist _).trans (List.dropWhile_sublist _)

/-- What has been trimmed is trimmed. -/
theorem trimChars_idem (cs : List Char) : trimChars (trimChars cs) = trimChars cs := by
  have hfront : (dropBlankTail (cs.dropWhile isBlank)).dropWhile isBlank =
      dropBlankTail (cs.dropWhile isBlank) := by
    cases hdrop : cs.dropWhile isBlank with
    | nil => rfl
    | cons c tail =>
      have hsolid : ¬ isBlank c = true := by
        have hnot := List.head_dropWhile_not isBlank (hdrop ▸ List.cons_ne_nil c tail)
        simpa [hdrop] using hnot
      rw [dropBlankTail]
      split
      · rw [if_neg hsolid, List.dropWhile_cons_of_neg hsolid]
      · rw [List.dropWhile_cons_of_neg hsolid]
  rw [trimChars, trimChars, hfront, dropBlankTail_idem]

theorem dropBlankTail_eq_self_iff :
    dropBlankTail cs = cs ↔ ∀ c, cs.getLast? = some c → isBlank c = false := by
  cases cs using List.reverseRecOn with
  | nil => exact iff_of_true rfl nofun
  | append_singleton front c =>
    rw [List.getLast?_concat]
    cases hblank : isBlank c with
    | false =>
      refine iff_of_true (dropBlankTail_append_nonblank front hblank) fun d hd => ?_
      rw [← Option.some.inj hd, hblank]
    | true =>
      refine iff_of_false (fun hself => ?_) fun h => ?_
      · rw [dropBlankTail_append_blank front hblank] at hself
        have hlength := (dropBlankTail_sublist front).length_le
        rw [hself, List.length_append, List.length_singleton] at hlength
        omega
      · cases hblank.symm.trans (h c rfl)

/-- Trimming leaves alone what neither begins nor ends with a blank, and nothing else. -/
theorem trimChars_eq_self_iff : trimChars cs = cs ↔
    (∀ c, cs.head? = some c → isBlank c = false) ∧ ∀ c, cs.getLast? = some c → isBlank c = false := by
  have hhead : (∀ c, cs.head? = some c → isBlank c = false) ↔ cs.dropWhile isBlank = cs := by
    rw [List.dropWhile_eq_self_iff]
    cases cs <;> simp
  rw [hhead, ← dropBlankTail_eq_self_iff]
  constructor
  · intro htrim
    have hfront : cs.dropWhile isBlank = cs := by
      refine (List.dropWhile_sublist isBlank).antisymm ?_
      conv_lhs => rw [← htrim]
      exact dropBlankTail_sublist _
    exact ⟨hfront, by rwa [trimChars, hfront] at htrim⟩
  · rintro ⟨hfront, hback⟩
    rw [trimChars, hfront, hback]

end Text

namespace Address

/-- A name that an address can carry without being taken for another one. -/
def Plain (part : String) : Prop :=
  part.toList ≠ [] ∧ '/' ∉ part.toList ∧ Text.trimChars part.toList = part.toList

instance (part : String) : Decidable (Plain part) :=
  inferInstanceAs (Decidable (_ ∧ _ ∧ _))

theorem splitAt_joinPath {path : List String} (isPath : path ≠ [])
    (plain : ∀ part ∈ path, '/' ∉ part.toList) :
    Text.splitAt '/' (joinPath path) = path.map (·.toList) := by
  induction path with
  | nil => exact absurd rfl isPath
  | cons part rest ih =>
    obtain ⟨hpart, hrest⟩ := List.forall_mem_cons.1 plain
    cases rest with
    | nil => rw [joinPath, Text.splitAt_of_not_mem hpart, List.map_singleton]
    | cons next more =>
      rw [joinPath, Text.splitAt_append hpart, ih (List.cons_ne_nil _ _) hrest]
      rfl

/-- What a text is read as has plain parts. -/
theorem plain_of_parse? {s : String} {a : Address} (h : parse? s = some a) :
    a.path ≠ [] ∧ ∀ part ∈ a.path, Plain part := by
  unfold parse? at h
  dsimp only at h
  split at h
  · cases h
  · rename_i hfull
    obtain rfl := Option.some.inj h
    refine ⟨?_, fun part hpart => ?_⟩
    · simpa using Text.splitAt_ne_nil '/' s.toList
    · simp only [List.map_map, List.mem_map, Function.comp_apply] at hpart
      obtain ⟨piece, hpiece, rfl⟩ := hpart
      have hnonempty : Text.trimChars piece ≠ [] := fun hnil =>
        hfull (List.any_eq_true.2 ⟨_, List.mem_map_of_mem hpiece, by rw [hnil]; rfl⟩)
      have hslash := Text.not_mem_of_mem_splitAt hpiece
      simp only [Plain, String.toList_ofList]
      exact ⟨hnonempty, fun hmem => hslash ((Text.trimChars_sublist piece).subset hmem),
        Text.trimChars_idem piece⟩

/-- An address is read back from its text exactly if its parts are plain. -/
theorem parse?_text_iff (a : Address) :
    parse? a.text = some a ↔ a.path ≠ [] ∧ ∀ part ∈ a.path, Plain part := by
  refine ⟨plain_of_parse?, fun ⟨hpath, hplain⟩ => ?_⟩
  have hpieces : (Text.splitAt '/' a.text.toList).map Text.trimChars = a.path.map (·.toList) := by
    rw [text, String.toList_ofList, splitAt_joinPath hpath fun part hpart => (hplain part hpart).2.1,
      List.map_map]
    exact List.map_congr_left fun part hpart => (hplain part hpart).2.2
  have hfull : ¬ (a.path.map (·.toList)).any (·.isEmpty) = true := by
    simp only [List.any_eq_true, List.mem_map, not_exists, not_and]
    rintro _ ⟨part, hpart, rfl⟩ hempty
    exact (hplain part hpart).1 (List.isEmpty_iff.1 hempty)
  have hback : (a.path.map (·.toList)).map String.ofList = a.path := by
    rw [List.map_map]
    exact (List.map_congr_left fun part _ => String.ofList_toList).trans (List.map_id _)
  unfold parse?
  dsimp only
  rw [hpieces, if_neg hfull, hback]

/-- A part that the text of an address keeps: there is something in it, but no slash, and it neither
begins nor ends with white space. -/
structure Kept (part : String) : Prop where
  filled : part ≠ ""
  slashless : '/' ∉ part.toList
  front : ∀ c, part.toList.head? = some c → Text.isBlank c = false
  back : ∀ c, part.toList.getLast? = some c → Text.isBlank c = false

theorem plain_iff_kept {part : String} : Plain part ↔ Kept part := by
  have hfilled : part.toList ≠ [] ↔ part ≠ "" := by
    rw [ne_eq, ne_eq, String.toList_eq_nil_iff]
  rw [Plain, Text.trimChars_eq_self_iff, hfilled]
  exact ⟨fun ⟨filled, slashless, front, back⟩ => ⟨filled, slashless, front, back⟩,
    fun h => ⟨h.filled, h.slashless, h.front, h.back⟩⟩

/-- The text of an address is read as that address exactly if there are parts and the text keeps
each of them; and whatever text is read as an address, the text of that address is read as it
again. -/
theorem read_back_iff_kept :
    (∀ a : Address, parse? a.text = some a ↔ a.path ≠ [] ∧ ∀ part ∈ a.path, Kept part) ∧
    ∀ (s : String) (a : Address), parse? s = some a →
      (a.path ≠ [] ∧ ∀ part ∈ a.path, Kept part) ∧ parse? a.text = some a := by
  have hkept : ∀ a : Address, (a.path ≠ [] ∧ ∀ part ∈ a.path, Plain part) ↔
      a.path ≠ [] ∧ ∀ part ∈ a.path, Kept part := fun a =>
    and_congr_right fun _ => forall₂_congr fun _ _ => plain_iff_kept
  refine ⟨fun a => (parse?_text_iff a).trans (hkept a), fun s a hread => ?_⟩
  have hplain := plain_of_parse? hread
  exact ⟨(hkept a).1 hplain, (parse?_text_iff a).2 hplain⟩

/-- Blanks of all kinds around the parts of a text do not come back. -/
theorem spaced_read_back : parse? "\u3000hall / press\t" = some ⟨["hall", "press"]⟩ ∧
    (∀ part ∈ ["hall", "press"], Kept part) ∧
    parse? (Address.mk ["hall", "press"]).text = some ⟨["hall", "press"]⟩ ∧
    parse? (Address.mk ["hall/press"]).text ≠ some ⟨["hall/press"]⟩ := by
  have hread : parse? "\u3000hall / press\t" = some ⟨["hall", "press"]⟩ := by decide +kernel
  obtain ⟨⟨-, hkept⟩, hback⟩ := read_back_iff_kept.2 _ _ hread
  refine ⟨hread, hkept, hback, fun hmerged => ?_⟩
  have hpress := ((read_back_iff_kept.1 _).1 hmerged).2 _ List.mem_cons_self
  exact absurd hpress.slashless (by decide)

end Address

mutual
def Plan.stepIds : Plan → List String
  | ⟨_, _, _, steps⟩ => StepSpec.stepIds steps

def StepSpec.stepIds : List StepSpec → List String
  | [] => []
  | ⟨id, _, _, _, kind⟩ :: rest => id :: (StepKind.stepIds kind ++ StepSpec.stepIds rest)

def StepKind.stepIds : StepKind → List String
  | .nested plan _ => Plan.stepIds plan
  | _ => []
end

/-- A path leads through the nested plans of a plan to a step. -/
inductive Plan.Locates : Plan → List String → Prop
  | step {plan : Plan} {step : StepSpec} (stands : step ∈ plan.steps) : Locates plan [step.id]
  | nested {plan inner : Plan} {step : StepSpec} {results : ResultMap} {path : List String}
      (stands : step ∈ plan.steps) (nested : step.kind = .nested inner results)
      (inside : Locates inner path) : Locates plan (step.id :: path)

theorem StepSpec.mem_stepIds {steps : List StepSpec} {id : String} : id ∈ stepIds steps ↔
    ∃ step ∈ steps, id = step.id ∨ id ∈ step.kind.stepIds := by
  induction steps with
  | nil => simp [stepIds]
  | cons step rest ih =>
    obtain ⟨id', name, inputs, outputs, kind⟩ := step
    simp only [stepIds, List.mem_cons, List.mem_append, ih, exists_eq_or_imp, or_assoc]

theorem Plan.mem_stepIds {plan : Plan} {id : String} :
    id ∈ plan.stepIds ↔ ∃ step ∈ plan.steps, id = step.id ∨ id ∈ step.kind.stepIds := by
  cases plan
  exact StepSpec.mem_stepIds

theorem Plan.Locates.ne_nil {plan : Plan} {path : List String} (h : plan.Locates path) : path ≠ [] := by
  cases h <;> exact List.cons_ne_nil _ _

/-- The paths to the steps of a plan are made of their ids. -/
theorem Plan.mem_stepIds_iff_locates {plan : Plan} {id : String} :
    id ∈ plan.stepIds ↔ ∃ path, plan.Locates path ∧ id ∈ path := by
  constructor
  · induction plan using Plan.nested_induction with
    | h plan ih =>
      intro hmem
      obtain ⟨step, hstep, rfl | hinner⟩ := mem_stepIds.1 hmem
      · exact ⟨_, .step hstep, List.mem_singleton_self _⟩
      · cases hkind : step.kind with
        | nested inner results =>
          rw [hkind] at hinner
          obtain ⟨path, hpath, hid⟩ := ih step hstep inner results hkind hinner
          exact ⟨_, .nested hstep hkind hpath, List.mem_cons_of_mem _ hid⟩
        | pass | split | join | task =>
          rw [hkind] at hinner
          cases hinner
  · rintro ⟨path, hpath, hid⟩
    induction hpath with
    | step stands => exact mem_stepIds.2 ⟨_, stands, .inl (List.mem_singleton.1 hid)⟩
    | nested stands nested inside ih =>
      rcases List.mem_cons.1 hid with hself | hinner
      · exact mem_stepIds.2 ⟨_, stands, .inl hself⟩
      · refine mem_stepIds.2 ⟨_, stands, .inr ?_⟩
        rw [nested]
        exact ih hinner

/-- All addresses of a plan are read back from their texts if the ids of its steps are plain, and
only then. -/
theorem Plan.addresses_read_back (plan : Plan) :
    (∀ a : Address, plan.Locates a.path → Address.parse? a.text = some a) ↔
      ∀ id ∈ plan.stepIds, Address.Plain id := by
  constructor
  · intro hall id hid
    obtain ⟨path, hpath, hmem⟩ := mem_stepIds_iff_locates.1 hid
    exact ((Address.parse?_text_iff ⟨path⟩).1 (hall ⟨path⟩ hpath)).2 id hmem
  · intro hplain a ha
    exact (Address.parse?_text_iff a).2 ⟨ha.ne_nil, fun part hpart => hplain part
      (mem_stepIds_iff_locates.2 ⟨a.path, ha, hpart⟩)⟩

/-! ### What a net reports -/

namespace Engine

variable {e : Engine} {fitter : Fitter} {plan : Plan}

/-- A step of a net is one of its plan, and the plan that it may run is nested there. -/
theorem Fits.from_plan (hf : fitter.Regular) (h : e.Fits fitter) {slot : Slot} (hs : slot ∈ e.slots) :
    ∃ step ∈ e.plan.steps, step.id = slot.step ∧ ∀ nest t child,
      slot.transition = .busy nest t child → ∃ results, step.kind = .nested nest.plan results := by
  obtain ⟨step, hstep, hid, -, -, hnest⟩ := h.spec hf hs
  exact ⟨step, hstep, hid, fun nest t child hbusy => (hnest nest (by rw [hbusy]; rfl)).2⟩

end Engine

/-- What is reported to have fired is a step of the plan. -/
theorem Act.locates {fitter : Fitter} (hf : fitter.Regular) {sc sc' : Scene} {events : List Event}
    (h : Act sc events sc') (hfits : sc.engine.Throughout (Engine.Fits fitter)) {a : Address}
    (hmem : .fired a ∈ events) : sc.engine.plan.Locates a.path := by
  induction h generalizing a with
  | woken | seated | refreshed | botched | refused | balked | released | closed | sunk => cases hmem
  | ended => cases List.mem_singleton.1 hmem
  | @announced sc i slot activity held running stands task =>
    obtain ⟨t, -, hevent⟩ := List.mem_map.1 hmem
    cases hevent
  | @fired sc i slot firing r r' running stands fires =>
    rcases List.mem_cons.1 hmem with hsame | hnote
    · obtain rfl := Event.fired.inj hsame
      obtain ⟨step, hstep, hid, -⟩ := hfits.here.from_plan hf (List.mem_of_getElem? stands)
      rw [Address.ofStep, ← hid]
      exact .step hstep
    · generalize slot.transition = tr at fires
      cases fires with
      | begin => cases List.mem_singleton.1 hnote
      | pass | routed | split | join | launch => cases hnote
  | @inside sc i slot nest u child child' events s' lore' running stands busy act ih =>
    obtain ⟨inner, hinner, hwithin⟩ := List.mem_filterMap.1 hmem
    cases inner with
    | started | completed => cases hwithin
    | fired step =>
      obtain rfl := Event.fired.inj (Option.some.inj hwithin)
      have hs := List.mem_of_getElem? stands
      obtain ⟨spec, hspec, hid, hnested⟩ := hfits.here.from_plan hf hs
      obtain ⟨results, hkind⟩ := hnested nest u child busy
      have hlocated := ih (hfits.child hs busy) hinner
      rw [hfits.here.2 slot hs nest u child busy] at hlocated
      rw [Address.within, ← hid]
      exact .nested hspec hkind hlocated

theorem Course.locates {fitter : Fitter} (hf : fitter.Regular) {sc sc' : Scene} {events : List Event}
    (h : Course sc events sc') (hsound : sc.Sound fitter) {a : Address} (hmem : .fired a ∈ events) :
    sc.engine.plan.Locates a.path := by
  induction h with
  | nil => cases hmem
  | @cons b c d events more act rest ih =>
    rcases List.mem_append.1 hmem with hnow | hlater
    · exact act.locates hf (Engine.throughout_fits hsound.kept) hnow
    · rw [← act.plan_eq]
      exact ih ((Course.of_act act).sound hf hsound) hlater

namespace Engine

/-- Whatever is asked of a net, all that it reports to have fired are steps of its plan. -/
theorem Watched.locates {fitter : Fitter} {plan : Plan} {log : List Event} {e : Engine}
    (hf : fitter.Regular) (h : Watched fitter plan log e) {a : Address} (hmem : .fired a ∈ log) :
    plan.Locates a.path := by
  induction h with
  | built => cases hmem
  | @performed log e fuel s op out before performs ih =>
    rcases List.mem_append.1 hmem with hearlier | hnow
    · exact ih hearlier
    · cases op with
      | call call =>
        obtain ⟨run, hrun, rfl⟩ := Option.map_eq_some_iff.1 performs
        rcases (before.reachable.steady hf).answer hf hrun with ⟨f, -, rfl⟩ | ⟨hopens, hproper⟩
        · cases hnow
        · obtain ⟨lore, hcourse⟩ := hproper.course
          rw [← hopens.runs]
          exact hcourse.locates hf (sound_lore hopens.fits s) hnow
      | pause | restore | dispose =>
        obtain rfl := Option.some.inj performs
        cases hnow

end Engine
end RecipeNet
